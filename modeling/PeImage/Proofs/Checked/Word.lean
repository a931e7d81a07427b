import PeImage.Bytes.Basic
import PeImage.Fault
import PeImage.Limits
import PeImage.Proofs.Result

/-!
# Checked computation in words

The readers of this library compute with exact natural numbers and look only at bytes that are
there. An engine that computes in 64-bit words has partial steps instead: a sum or a product can
leave the range of words, a difference can fall below zero, and a slice can leave its bytes.
`Checked` computations perform those steps in the open. A step that fails ends the computation
with a `Trap`, which nothing recovers from, while a `Fault` is an ordinary refusal of the input.
A case that an engine takes to be impossible is a trap as well.

That a checked computation equals an exact one therefore says two things at once: it gives the same
value or the same fault, and it meets no trap on the way there.
-/

namespace PeImage

/-- A partial step that failed. -/
inductive Trap
  /-- A sum or a product is larger than every word. -/
  | overflow
  /-- A difference is below zero. -/
  | negative
  /-- A slice or an index is outside its bytes. -/
  | outside
  /-- A case has come up that was taken to be impossible. -/
  | unreachable
  deriving DecidableEq, Repr

/-- Why a checked computation ends without a value. -/
inductive Stop
  | trap (cause : Trap)
  | fault (cause : Fault)
  deriving DecidableEq, Repr

/-- A computation whose partial steps are checked. -/
abbrev Checked (α : Type) := Except Stop α

namespace Checked

variable {α β : Type}

/-- Ends the computation with a fault. -/
def refuse (fault : Fault) : Checked α := .error (.fault fault)

/-- Ends the computation with a trap. -/
def trap (cause : Trap) : Checked α := .error (.trap cause)

/-- An exact computation, which has no partial steps. -/
def ofResult : Except Fault α → Checked α
  | .ok value => .ok value
  | .error fault => refuse fault

/-- What a computation gives, a fault included. A trap is not caught. -/
def attempt : Checked α → Checked (Except Fault α)
  | .ok value => .ok (.ok value)
  | .error (.fault fault) => .ok (.error fault)
  | .error (.trap cause) => trap cause

/-- A computation that is taken to have no fault. -/
def certain : Checked α → Checked α
  | .ok value => .ok value
  | .error (.fault _) => trap .unreachable
  | .error (.trap cause) => trap cause

@[simp] theorem ofResult_ok (value : α) : ofResult (.ok value) = .ok value := rfl

@[simp] theorem attempt_ofResult (result : Except Fault α) :
    attempt (ofResult result) = .ok result := by
  cases result <;> rfl

@[simp] theorem attempt_ok (value : α) : attempt (.ok value) = .ok (.ok value) := rfl

@[simp] theorem attempt_refuse (fault : Fault) :
    attempt (refuse fault : Checked α) = .ok (.error fault) := rfl

@[simp] theorem certain_ok (value : α) : certain (.ok value) = .ok value := rfl

/-- Exact computations in sequence are an exact computation. -/
theorem ofResult_bind (first : Except Fault α) (next : α → Except Fault β) :
    ofResult (first >>= next) = ofResult first >>= fun value => ofResult (next value) := by
  cases first <;> rfl

/-- A number that has to fit into a word. -/
def fits (n : Nat) : Checked Nat := if n ≤ Limits.largest then .ok n else trap .overflow

/-- The sum of two words. -/
def add (a b : Nat) : Checked Nat := fits (a + b)

/-- The difference of two words. -/
def sub (a b : Nat) : Checked Nat := if b ≤ a then .ok (a - b) else trap .negative

/-- The sum of two words, if it is one. -/
def add? (a b : Nat) : Option Nat := if a + b ≤ Limits.largest then some (a + b) else none

/-- The difference of two words, if it is one. -/
def sub? (a b : Nat) : Option Nat := if b ≤ a then some (a - b) else none

/-- The product of two words, if it is one. -/
def mul? (a b : Nat) : Option Nat := if a * b ≤ Limits.largest then some (a * b) else none

/-- The sum of two words, or the largest word. -/
def addUpTo (a b : Nat) : Nat := min (a + b) Limits.largest

/-- The product of two words, or the largest word. -/
def mulUpTo (a b : Nat) : Nat := min (a * b) Limits.largest

/-- The bytes from `start` to `stop`, which have to be in order and inside. -/
def slice (data : Bytes) (start stop : Nat) : Checked Bytes :=
  if start ≤ stop ∧ stop ≤ data.size then .ok (data.clip start (stop - start)) else trap .outside

/-- The byte at a position, which has to be inside. -/
def byteAt (data : Bytes) (position : Nat) : Checked UInt8 :=
  if position < data.size then .ok (data.u8 position) else trap .outside

theorem fits_eq {n : Nat} (h : n ≤ Limits.largest) : fits n = .ok n := if_pos h

theorem add_eq {a b : Nat} (h : a + b ≤ Limits.largest) : add a b = .ok (a + b) := if_pos h

theorem sub_eq {a b : Nat} (h : b ≤ a) : sub a b = .ok (a - b) := if_pos h

theorem sub?_of_le {a b : Nat} (h : b ≤ a) : sub? a b = some (a - b) := if_pos h

theorem sub?_of_lt {a b : Nat} (h : a < b) : sub? a b = none := if_neg (Nat.not_le_of_lt h)

theorem slice_eq {data : Bytes} {start stop : Nat} (horder : start ≤ stop)
    (hinside : stop ≤ data.size) : slice data start stop = .ok (data.clip start (stop - start)) :=
  if_pos ⟨horder, hinside⟩

theorem byteAt_eq {data : Bytes} {position : Nat} (h : position < data.size) :
    byteAt data position = .ok (data.u8 position) := if_pos h

/-- The sum of two 32-bit words is a 64-bit word. -/
theorem toNat_add_toNat_le_largest (a b : UInt32) : a.toNat + b.toNat ≤ Limits.largest := by
  have ha := a.toNat_lt
  have hb := b.toNat_lt
  unfold Limits.largest
  omega

/-- A search whose test needs no trap is the search by the exact test. -/
theorem findM?_eq (test : α → Checked Bool) (exact : α → Bool)
    (h : ∀ value, test value = .ok (exact value)) (values : List α) :
    values.findM? test = .ok (values.find? exact) := by
  rw [funext h]
  exact List.findM?_pure exact values

/-- A search for a first result that needs no trap is the exact search. -/
theorem findSomeM?_eq (step : α → Checked (Option β)) (exact : α → Option β)
    (h : ∀ value, step value = .ok (exact value)) (values : List α) :
    values.findSomeM? step = .ok (values.findSome? exact) := by
  rw [funext h]
  exact List.findSomeM?_pure

/-- A filter whose steps need no trap is the exact filter. -/
theorem filterMapM_eq (step : α → Checked (Option β)) (exact : α → Option β) (values : List α)
    (h : ∀ value ∈ values, step value = .ok (exact value)) :
    values.filterMapM step = .ok (values.filterMap exact) := by
  induction values with
  | nil => rfl
  | cons value rest ih =>
    rw [List.filterMapM_cons, h value List.mem_cons_self, ok_bind,
      ih fun other hother => h other (List.mem_cons_of_mem value hother), List.filterMap_cons]
    cases exact value <;> rfl

/-- A fold whose steps need no trap is the exact fold. -/
theorem foldlM_eq (step : β → α → Checked β) (exact : β → α → β)
    (h : ∀ state value, step state value = .ok (exact state value)) (values : List α) (state : β) :
    values.foldlM step state = .ok (values.foldl exact state) := by
  rw [funext fun state => funext (h state)]
  exact List.foldlM_pure

end Checked

end PeImage
