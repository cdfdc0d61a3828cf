import TypeGraph.Archive.Header
import TypeGraph.Classification
import TypeGraph.Config
import TypeGraph.Proofs.Accepting
import TypeGraph.Proofs.Aligning
import TypeGraph.Proofs.Arenas
import TypeGraph.Proofs.Arithmetic
import TypeGraph.Proofs.Asking
import TypeGraph.Proofs.Damage
import TypeGraph.Proofs.Dependency
import TypeGraph.Proofs.Encoding
import TypeGraph.Proofs.Identity
import TypeGraph.Proofs.Keywords
import TypeGraph.Proofs.Owners
import TypeGraph.Proofs.Permanence
import TypeGraph.Proofs.Porting
import TypeGraph.Proofs.Qualifying
import TypeGraph.Proofs.Rebuilding
import TypeGraph.Proofs.Recording
import TypeGraph.Proofs.Referring
import TypeGraph.Proofs.Safety
import TypeGraph.Proofs.Signatures
import TypeGraph.Proofs.Sized
import TypeGraph.Proofs.Truncation
import TypeGraph.Proofs.Variants
import TypeGraph.Proofs.Wrapping
import TypeGraph.Tree.Display
