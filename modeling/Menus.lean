import Menus.Main
import Menus.Proofs.Separators
import Menus.Proofs.SeparatorRuns
import Menus.Proofs.Collapsing
import Menus.Proofs.NormalForm
import Menus.Proofs.Safeguards
import Menus.Proofs.Conservation
import Menus.Proofs.Insertion
import Menus.Proofs.Offers
import Menus.Proofs.EntryLists
import Menus.Proofs.Symbols
import Menus.Proofs.Scanning
import Menus.Proofs.Layout
import Menus.Proofs.RoundTrip
import Menus.Proofs.Tokens
import Menus.Proofs.Respacing
import Menus.Proofs.Partition
import Menus.Proofs.ReadRuns
import Menus.Proofs.Documents
import Menus.Proofs.WrittenBreaks
import Menus.Proofs.Progress
import Menus.Proofs.FreeReading
import Menus.Proofs.DepthLimit
import Menus.Proofs.Acceptance
import Menus.Proofs.Nesting
import Menus.Proofs.Names
import Menus.Proofs.Failures
import Menus.Proofs.Places
import Menus.Proofs.Components
import Menus.Proofs.Following
import Menus.Proofs.Resolving
import Menus.Proofs.SettingsLookup
import Menus.Proofs.TreeChanges
import Menus.Proofs.Replacing
import Menus.Proofs.Collecting
import Menus.Proofs.Recollecting
import Menus.Proofs.Finding
import Menus.Proofs.FileFailures
import Menus.Proofs.CommonRoot
import Menus.Proofs.Processing
import Menus.Proofs.Footprint
import Menus.Proofs.Overwriting
import Menus.Proofs.AllOrNothing
import Menus.Proofs.Overlay
import Menus.Proofs.Independence
import Menus.Proofs.RunOrder
import Menus.Proofs.Checking
import Menus.Proofs.Repeating
import Menus.Proofs.Restoring
import Menus.Proofs.Rounds
import Menus.Proofs.Resuming
import Menus.Proofs.Anomalies
import Menus.Proofs.WrittenLines
import Menus.Proofs.Trailing
import Menus.Proofs.Settled
