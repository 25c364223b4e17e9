import NanoConsensus.Types
import NanoConsensus.Election.Basic
import NanoConsensus.Election.Tally
import NanoConsensus.Election.Vote
import NanoConsensus.Election.Publish
import NanoConsensus.Election.Timer
import NanoConsensus.Election.System
import NanoConsensus.Election.Invariants
import NanoConsensus.Election.Expiry
import NanoConsensus.Election.RateLimit
import NanoConsensus.BlockProcessor
import NanoConsensus.BlockProcessor.Intake
import NanoConsensus.BlockProcessor.Gaps
import NanoConsensus.Network
import NanoConsensus.Scheduler.Optimistic
