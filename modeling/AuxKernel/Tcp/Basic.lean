import Mathlib.Data.BitVec
import Mathlib.Tactic.Abel

/-!
# TCP sequence numbers and states

Sequence numbers are 32-bit numbers, compared by their difference as an `int`
(`netinet/tcp_seq.h`). The positions in a stream shorter than half their range are
compared by them as they are (`diff_ofInt`).
-/

namespace AuxKernel.Tcp

/-- A sequence number. -/
abbrev TcpSeq := BitVec 32

/-- `(int)(a - b)`. -/
def TcpSeq.diff (a b : TcpSeq) : ℤ := (a - b).toInt

/-- `SEQ_LT`, `SEQ_LEQ`, `SEQ_GT` and `SEQ_GEQ`. -/
def seqLt (a b : TcpSeq) : Bool := a.diff b < 0
@[inherit_doc seqLt]
def seqLeq (a b : TcpSeq) : Bool := a.diff b ≤ 0
@[inherit_doc seqLt]
def seqGt (a b : TcpSeq) : Bool := a.diff b > 0
@[inherit_doc seqLt]
def seqGeq (a b : TcpSeq) : Bool := a.diff b ≥ 0

/-- The difference of the numbers of two positions is that of the positions, if it
    is in range. -/
theorem diff_ofInt (base : TcpSeq) {x y : ℤ} (h₁ : -2 ^ 31 ≤ x - y) (h₂ : x - y < 2 ^ 31) :
    TcpSeq.diff (base + BitVec.ofInt 32 x) (base + BitVec.ofInt 32 y) = x - y := by
  have : base + BitVec.ofInt 32 x - (base + BitVec.ofInt 32 y) = BitVec.ofInt 32 (x - y) := by
    rw [Int.sub_eq_add_neg, BitVec.ofInt_add, BitVec.ofInt_neg]
    abel
  rw [TcpSeq.diff, this, BitVec.toInt_ofInt]
  exact Int.bmod_eq_of_le (by omega) (by omega)

theorem eq_add_diff (a b : TcpSeq) : a = b + BitVec.ofInt 32 (a.diff b) := by
  rw [TcpSeq.diff, BitVec.ofInt_toInt]
  abel

theorem diff_add (a : TcpSeq) {x : ℤ} (h₁ : -2 ^ 31 ≤ x) (h₂ : x < 2 ^ 31) :
    (a + BitVec.ofInt 32 x).diff a = x := by
  simpa using diff_ofInt a (x := x) (y := 0) (by omega) (by omega)

/-- Differences with a common base, if they are in range. -/
theorem diff_eq_sub (a p q : TcpSeq) (h₁ : -2 ^ 31 ≤ p.diff a - q.diff a)
    (h₂ : p.diff a - q.diff a < 2 ^ 31) : p.diff q = p.diff a - q.diff a := by
  conv_lhs => rw [eq_add_diff p a, eq_add_diff q a]
  exact diff_ofInt a h₁ h₂

@[simp] theorem diff_self (a : TcpSeq) : a.diff a = 0 := by simp [TcpSeq.diff]

theorem diff_lt (a b : TcpSeq) : -2 ^ 31 ≤ a.diff b ∧ a.diff b < 2 ^ 31 :=
  ⟨BitVec.le_toInt _, BitVec.toInt_lt⟩

theorem diff_eq_zero {a b : TcpSeq} : a.diff b = 0 ↔ a = b := by
  refine ⟨fun h => ?_, fun h => h ▸ diff_self a⟩
  rw [eq_add_diff a b, h]
  simp

/-- The states of a connection (`netinet/tcp_fsm.h`), in their order. -/
inductive TcpState
  | closed
  | listen
  | synSent
  | synReceived
  | established
  | closeWait
  | finWait1
  | closing
  | lastAck
  | finWait2
  | timeWait
  deriving DecidableEq, Repr

/-- The number of a state. -/
def TcpState.num (s : TcpState) : ℕ := s.ctorIdx

/-- The connection has received a `SYN`. -/
def haveRcvdSyn (s : TcpState) : Bool := s.num ≥ TcpState.synReceived.num

end AuxKernel.Tcp
