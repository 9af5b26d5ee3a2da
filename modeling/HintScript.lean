import HintScript.Bytes
import HintScript.Opcode
import HintScript.Text
import HintScript.Error
import HintScript.Number
import HintScript.Hash
import HintScript.Field
import HintScript.Script
import HintScript.Machine
import HintScript.Commitment
import HintScript.Extraction
import HintScript.Channel
import HintScript.Work
import HintScript.Merkle
import HintScript.QueryPhase
import HintScript.Proofs.Number
import HintScript.Proofs.Exec
import HintScript.Proofs.Peak
import HintScript.Proofs.Framing
import HintScript.Proofs.Shift
import HintScript.Proofs.Limits
import HintScript.Proofs.BitOrder
import HintScript.Proofs.Commitment
import HintScript.Proofs.Word
import HintScript.Proofs.IndexBits
import HintScript.Proofs.Extraction
import HintScript.Proofs.Field
import HintScript.Proofs.Channel
import HintScript.Proofs.Binding
import HintScript.Proofs.Search
import HintScript.Proofs.Work
import HintScript.Proofs.ZeroBits
import HintScript.Proofs.Merkle
import HintScript.Proofs.QueryPhase
import HintScript.Proofs.Agreement
import HintScript.Proofs.Completeness
import HintScript.Proofs.Wire
import HintScript.Proofs.NormalForm
import HintScript.Proofs.Structured
import HintScript.Proofs.Transcript
import HintScript.Proofs.Malleability
import HintScript.Proofs.Tree
import HintScript.Proofs.Canonical
import HintScript.Proofs.Separation
import HintScript.Proofs.Refusal
import HintScript.Proofs.Lockstep
