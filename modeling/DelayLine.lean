import DelayLine.Clock
import DelayLine.FixedQueue
import DelayLine.Link
import DelayLine.Main
import DelayLine.Proofs.Delivery
import DelayLine.Proofs.Traffic
import DelayLine.Proofs.Concatenation
import DelayLine.Proofs.Rereading
import DelayLine.Proofs.Metering
import DelayLine.Proofs.Precedence
import DelayLine.Proofs.UniformDelay
import DelayLine.Proofs.Mirror
import DelayLine.Proofs.Siblings
import DelayLine.Proofs.LinkRun
import DelayLine.Proofs.Teardown
import DelayLine.Proofs.Independence
import DelayLine.Proofs.Comparison
import DelayLine.Proofs.Confinement
import DelayLine.Proofs.LiveRules
import DelayLine.Proofs.Generation
import DelayLine.Proofs.CommandOutcome
import DelayLine.Proofs.DrainExtent
import DelayLine.Proofs.Waiting
import DelayLine.Proofs.Polling
import DelayLine.Proofs.Layouts
import DelayLine.Proofs.Rounding
import DelayLine.Proofs.Spelling
import DelayLine.Proofs.Columns
import DelayLine.Proofs.AmountTokens
import DelayLine.Proofs.Fractions
import DelayLine.RuleSet.Index
import DelayLine.Proofs.Levels
import DelayLine.Proofs.Collected
import DelayLine.Proofs.Seeding
import DelayLine.Proofs.LastPair
import DelayLine.Proofs.Lossless
import DelayLine.Proofs.LargestThreshold
import DelayLine.Proofs.PortPlace
import DelayLine.Proofs.ExactWholes
import DelayLine.Proofs.HalfTrips
import DelayLine.Proofs.RoundTripFiles
import DelayLine.Proofs.PacketBoundaries
import DelayLine.Proofs.CounterListing
import DelayLine.ReleaseHeap
import DelayLine.Proofs.EarliestFirst
