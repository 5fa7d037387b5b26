import TandemScript.Main
import TandemScript.Proofs.Snapshots
import TandemScript.Proofs.Equivalence
import TandemScript.Proofs.InRange
import TandemScript.Proofs.ScopedRuns
import TandemScript.Proofs.Preparation
import TandemScript.Proofs.ProgramText
import TandemScript.Proofs.Depth
import TandemScript.Proofs.Capacity
import TandemScript.Proofs.Bytecode
import TandemScript.Proofs.Contexts
import TandemScript.Proofs.FieldAccess
import TandemScript.Proofs.Registration
import TandemScript.Proofs.ObjectLiterals
import TandemScript.Proofs.FunctionIdentity
import TandemScript.Proofs.Comparisons
import TandemScript.Proofs.Arithmetic
import TandemScript.Proofs.Slots
import TandemScript.Proofs.Listings
import TandemScript.Proofs.HeapHistories
import TandemScript.Proofs.Doubling
import TandemScript.Proofs.LexicalScopes
