import JvmPatch.Files.Tree
import JvmPatch.Main
import JvmPatch.Proofs.Apply.Consistency
import JvmPatch.Proofs.Apply.Frame
import JvmPatch.Proofs.Apply.Removal
import JvmPatch.Proofs.ClassFile.RoundTrip
import JvmPatch.Proofs.Resolve.Odometer
import JvmPatch.Proofs.Resolve.Satisfaction
import JvmPatch.Proofs.Decimal.Digits
import JvmPatch.Proofs.Decimal.Rounding
import JvmPatch.Proofs.Apply.Marks
import JvmPatch.Proofs.ClassSet.Intake
import JvmPatch.Proofs.Apply.Building
import JvmPatch.Proofs.Apply.EveryBody
import JvmPatch.Proofs.Apply.Labels
import JvmPatch.Proofs.Apply.MatchOnly
import JvmPatch.Proofs.Apply.Writing
import JvmPatch.Proofs.Decimal.RoundTrip
import JvmPatch.Proofs.Listing.Depiction
import JvmPatch.Proofs.Listing.Walking
import JvmPatch.Proofs.Text.Quoted
import JvmPatch.Proofs.Apply.Bindings
import JvmPatch.Proofs.Resolve.Members
import JvmPatch.Proofs.Apply.Views
import JvmPatch.Proofs.ClassSet.Ancestors
import JvmPatch.Proofs.ClassSet.Sharing
import JvmPatch.Proofs.Run.Failure
import JvmPatch.Proofs.Apply.Distinct
import JvmPatch.Proofs.Apply.Owners
import JvmPatch.Proofs.Agreement
import JvmPatch.Proofs.Renumbering.Basic
import JvmPatch.Proofs.Renumbering.Editing
import JvmPatch.Proofs.Renumbering.Insertion
import JvmPatch.Proofs.Renumbering.Sharing
import JvmPatch.Proofs.Resolve.Placing
import JvmPatch.Proofs.Resolve.Rollback
import JvmPatch.Proofs.Resolve.Searching
import JvmPatch.Proofs.Apply.Splicing
import JvmPatch.Proofs.Listing.Reading
import JvmPatch.Proofs.Insn.StackDepth
import JvmPatch.Proofs.Scope.Patterns
import JvmPatch.Proofs.Pattern.Rebuilding
import JvmPatch.Proofs.Bytecode.Decoding
import JvmPatch.Proofs.ClassFile.Locals
import JvmPatch.Proofs.Apply.Additions
import JvmPatch.Proofs.Listing.Recognition
import JvmPatch.Proofs.Apply.Synthesis
import JvmPatch.Proofs.ClassSet.Mentions
import JvmPatch.Proofs.Script.Constants
import JvmPatch.Proofs.ClassSet.Hierarchy
import JvmPatch.Proofs.ClassSet.Selection
import JvmPatch.Proofs.ClassSet.Termination
import JvmPatch.Proofs.Apply.Provision
import JvmPatch.Proofs.Run.Destinations
import JvmPatch.Proofs.Listing.RoundTrip
import JvmPatch.Proofs.Renumbering.Running
import JvmPatch.Proofs.ClassFile.Requests
import JvmPatch.Proofs.Insn.Arguments
import JvmPatch.Proofs.Run.Expansion
import JvmPatch.Proofs.Jar.Manifest
