import SchemaCast.Files.Tree
import SchemaCast.Main
import SchemaCast.Proofs.Containers
import SchemaCast.Proofs.Compile
import SchemaCast.Proofs.Builtin
import SchemaCast.Proofs.Descriptor
import SchemaCast.Proofs.Conformance
import SchemaCast.Proofs.FixedPoint
import SchemaCast.Proofs.Idempotence
import SchemaCast.Proofs.Blame
import SchemaCast.Proofs.Misuse
import SchemaCast.Proofs.Loading
import SchemaCast.Proofs.Surfacing
import SchemaCast.Proofs.Alike
import SchemaCast.Proofs.Relaxation
import SchemaCast.Proofs.Inspection
import SchemaCast.Proofs.Definition
import SchemaCast.Proofs.Inlining
import SchemaCast.Proofs.Reordering
import SchemaCast.Proofs.WriteOnce
import SchemaCast.Proofs.Stages
import SchemaCast.Proofs.Rendering
import SchemaCast.Proofs.Entries
import SchemaCast.Proofs.Misshapen
import SchemaCast.Proofs.ReadBack
import SchemaCast.Proofs.Equality
import SchemaCast.Proofs.Merging
import SchemaCast.Proofs.Members
import SchemaCast.Proofs.Uniform
import SchemaCast.Proofs.Violations
import SchemaCast.Proofs.LeadingPattern
import SchemaCast.Proofs.NumberText
import SchemaCast.Proofs.Alternatives
import SchemaCast.Proofs.Directory
import SchemaCast.Proofs.Options
import SchemaCast.Proofs.Dictionary
import SchemaCast.Proofs.PathText
import SchemaCast.Proofs.Reflexivity
