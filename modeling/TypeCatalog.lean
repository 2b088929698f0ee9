import TypeCatalog.Ascending
import TypeCatalog.Inspection
import TypeCatalog.Workspace
import TypeCatalog.Proofs.Descent
import TypeCatalog.Proofs.Stack
import TypeCatalog.Proofs.History
import TypeCatalog.Proofs.Links
import TypeCatalog.Proofs.Consistency
import TypeCatalog.Proofs.Lookup
import TypeCatalog.Proofs.WellFormed
import TypeCatalog.Proofs.Content
import TypeCatalog.Proofs.Cycles
import TypeCatalog.Proofs.Correspondence
import TypeCatalog.Proofs.Permanence
import TypeCatalog.Proofs.Laziness
import TypeCatalog.Proofs.Diagnostics
import TypeCatalog.Proofs.Independence
import TypeCatalog.Proofs.Relocation
import TypeCatalog.Proofs.Pruning
import TypeCatalog.Proofs.Strictness
import TypeCatalog.Proofs.Switches
import TypeCatalog.Proofs.Locality
import TypeCatalog.Proofs.References
import TypeCatalog.Proofs.Events
import TypeCatalog.Proofs.Hosting
import TypeCatalog.Proofs.Counts
import TypeCatalog.Proofs.Derivation
import TypeCatalog.Proofs.SingleFlight
import TypeCatalog.Proofs.BreadthFirst
import TypeCatalog.Proofs.Visibility
import TypeCatalog.Proofs.FileOrder
import TypeCatalog.Proofs.FullNames
import TypeCatalog.Proofs.ImplicitRoots
import TypeCatalog.Proofs.FaultyReferences
import TypeCatalog.Proofs.Grouping
import TypeCatalog.Proofs.Places
import TypeCatalog.Proofs.Readings
import TypeCatalog.Proofs.NameGrammar
import TypeCatalog.Proofs.Renames
import TypeCatalog.Proofs.PrintedNames
import TypeCatalog.Proofs.AssemblyTexts
