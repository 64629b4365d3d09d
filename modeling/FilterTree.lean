import FilterTree.Settings.Yaml
import FilterTree.Editor.Command
import FilterTree.Json.Equiv
import FilterTree.Forest.Form
import FilterTree.Proofs.Grammar
import FilterTree.Proofs.Branches
import FilterTree.Proofs.Paths
import FilterTree.Proofs.Operand
import FilterTree.Proofs.RoundTrip
import FilterTree.Proofs.Equivalence
import FilterTree.Proofs.Canonical
import FilterTree.Proofs.Forest
import FilterTree.Proofs.Rows
import FilterTree.Proofs.Atomicity
import FilterTree.Proofs.Steps
import FilterTree.Proofs.Identifiers
import FilterTree.Proofs.Labels
import FilterTree.Proofs.Positions
import FilterTree.Proofs.LiveKeys
import FilterTree.Proofs.Located
import FilterTree.Proofs.Overlay
import FilterTree.Proofs.Slots
import FilterTree.Proofs.Lookup
import FilterTree.Proofs.Output
import FilterTree.Proofs.Convergence
import FilterTree.Proofs.Alteration
import FilterTree.Proofs.Correspondence
import FilterTree.Proofs.Entries
import FilterTree.Proofs.Edits
import FilterTree.Proofs.Fullness
import FilterTree.Proofs.Refusals
import FilterTree.Proofs.Tidiness
import FilterTree.Proofs.Reload
import FilterTree.Proofs.Criteria
import FilterTree.Proofs.Growth
import FilterTree.Proofs.Additions
import FilterTree.Proofs.Pruning
import FilterTree.Proofs.Rearrangement
import FilterTree.Proofs.Grafts
import FilterTree.Proofs.Construction
import FilterTree.Proofs.Undoing
import FilterTree.Proofs.Rewriting
import FilterTree.Proofs.Removal
import FilterTree.Proofs.Contract
import FilterTree.Proofs.Forms
import FilterTree.Proofs.Search
import FilterTree.Proofs.CreationOrder
import FilterTree.Proofs.Drawing
import FilterTree.Proofs.Repetition
import FilterTree.Proofs.Absorption
import FilterTree.Proofs.Scopes
import FilterTree.Proofs.Tags
