/-!
# Runs of values

Values at successive positions, up to the first that fails a test. Strings end at a NUL and tables
at a zero in this way, and nothing behind the end is looked at: a table that ends at once costs no
more than its end, however much of the file follows it.
-/

namespace PeImage

/-- The values at the positions from `start` on that come before the first one failing the test, at
most `count` of them. -/
def runWhile {α : Type} (test : α → Bool) (value : Nat → α) : (count start : Nat) → List α
  | 0, _ => []
  | count + 1, start =>
    let first := value start
    if test first then first :: runWhile test value count (start + 1) else []

/-- A run is the longest passing start of all `count` values. -/
theorem runWhile_eq {α : Type} (test : α → Bool) (value : Nat → α) (count start : Nat) :
    runWhile test value count start = ((List.range' start count).map value).takeWhile test := by
  induction count generalizing start with
  | zero => rfl
  | succ count ih => simp [runWhile, List.range'_succ, List.takeWhile_cons, ih]

end PeImage
