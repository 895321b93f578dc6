import EcmaModules.Directory
import EcmaModules.Main
import EcmaModules.Proofs.Awaiting
import EcmaModules.Proofs.Closure
import EcmaModules.Proofs.Cycles
import EcmaModules.Proofs.Denotation
import EcmaModules.Proofs.Downfall
import EcmaModules.Proofs.Halting
import EcmaModules.Proofs.Holding
import EcmaModules.Proofs.Listing
import EcmaModules.Proofs.Misuse
import EcmaModules.Proofs.Namespaces
import EcmaModules.Proofs.Popping
import EcmaModules.Proofs.Reactions
import EcmaModules.Proofs.Reading
import EcmaModules.Proofs.Rollback
import EcmaModules.Proofs.Schedules
import EcmaModules.Proofs.Settlement
import EcmaModules.Proofs.Smooth
import EcmaModules.Proofs.Synchronous
import EcmaModules.Proofs.Tally
import EcmaModules.Report
import EcmaModules.Proofs.Extent
import EcmaModules.Proofs.Patience
import EcmaModules.Proofs.Placid
import EcmaModules.Proofs.Gathering
import EcmaModules.Proofs.Showing
import EcmaModules.Proofs.Doings
import EcmaModules.Proofs.SetUps
