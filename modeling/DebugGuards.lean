import DebugGuards.Main
import DebugGuards.Proofs.Expansion.FailureOrder
import DebugGuards.Proofs.Printing.Faithful
import DebugGuards.Proofs.Options.Precedence
import DebugGuards.Proofs.Command.Directory
import DebugGuards.Proofs.Expansion.Reordering
import DebugGuards.Proofs.Expansion.Dialects
import DebugGuards.Proofs.Expansion.Editing
import DebugGuards.Proofs.Expansion.Settled
import DebugGuards.Proofs.Workspace.FreshName
import DebugGuards.Proofs.Version.Comparison
import DebugGuards.Proofs.Expansion.Expiry
import DebugGuards.Proofs.Options.Override
import DebugGuards.Proofs.Expansion.Traversal
import DebugGuards.Proofs.Expansion.GuardText
