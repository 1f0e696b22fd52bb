import WordMachine.Machine.Snapshot
import WordMachine.Main
import WordMachine.Proofs.Assembly.Layout
import WordMachine.Proofs.Assembly.Presentation
import WordMachine.Proofs.Assembly.Regrouping
import WordMachine.Proofs.Listing.RoundTrip
import WordMachine.Proofs.Listing.Raw
import WordMachine.Proofs.Listing.Segment
import WordMachine.Proofs.Listing.Stream
import WordMachine.Proofs.Machine.Checked
import WordMachine.Proofs.Machine.Safety
import WordMachine.Proofs.Machine.Relaxation
import WordMachine.Proofs.Machine.Atomicity
import WordMachine.Proofs.Machine.ControlFlow
import WordMachine.Proofs.Machine.Stack
import WordMachine.Proofs.Machine.Footprint
import WordMachine.Proofs.Machine.Resumption
import WordMachine.Proofs.Machine.Calls
import WordMachine.Proofs.Machine.Tracing
import WordMachine.Proofs.Machine.Comparison
import WordMachine.Proofs.Machine.ThreeRegisters
import WordMachine.Proofs.Assembly.Partition
import WordMachine.Proofs.Machine.Composition
import WordMachine.Proofs.Machine.Forward
import WordMachine.Proofs.Listing.Colours
import WordMachine.Proofs.Machine.Colours
import WordMachine.Proofs.Assembly.Coverage
import WordMachine.Proofs.Assembly.Normalization
import WordMachine.Proofs.Listing.Lines
import WordMachine.Proofs.Listing.Labels
import WordMachine.Proofs.Machine.Agreement
