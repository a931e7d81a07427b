/-!
# Results of steps in sequence

A step that follows another is taken only after a result, so the whole gives a value exactly when
both do, and a fault exactly when one of them is the first to fail. A step that changes a state in
place is followed from the state it reaches, and a failure keeps that state.
-/

namespace PeImage

variable {ε σ α β : Type}

/-- A step after a value is taken from there. -/
theorem ok_bind (value : α) (next : α → Except ε β) : (Except.ok value >>= next) = next value := rfl

/-- A step that gives a value in any case maps the one before it. -/
theorem bind_eq_map (result : Except ε α) (f : α → β) :
    (result >>= fun value => .ok (f value)) = result.map f := by
  cases result with
  | error fault => rfl
  | ok value => rfl

/-- Two steps give a value when the first does and the second does from there. -/
theorem bind_eq_ok {first : Except ε α} {next : α → Except ε β} {value : β} :
    (first >>= next) = .ok value ↔ ∃ middle, first = .ok middle ∧ next middle = .ok value := by
  cases first with
  | error fault => simp [bind, Except.bind]
  | ok middle => simp [bind, Except.bind]

/-- Two steps fail where the first does, and otherwise where the second does. -/
theorem bind_eq_error {first : Except ε α} {next : α → Except ε β} {fault : ε} :
    (first >>= next) = .error fault ↔
      first = .error fault ∨ ∃ middle, first = .ok middle ∧ next middle = .error fault := by
  cases first with
  | error fault => simp [bind, Except.bind]
  | ok middle => simp [bind, Except.bind]

/-- A mapped step gives a value exactly when the step gives one that is mapped to it. -/
theorem map_eq_ok {f : α → β} {result : Except ε α} {value : β} :
    result.map f = .ok value ↔ ∃ before, result = .ok before ∧ f before = value := by
  cases result with
  | error fault => simp [Except.map]
  | ok before => simp [Except.map]

/-- A mapped step fails as the step does. -/
theorem map_eq_error {f : α → β} {result : Except ε α} {fault : ε} :
    result.map f = .error fault ↔ result = .error fault := by
  cases result with
  | error other => simp [Except.map]
  | ok before => simp [Except.map]

/-- Behind a check that may throw, a value is reached exactly when the check passes. -/
theorem check_eq_ok {c : Prop} [Decidable c] {fault : ε} {next : Unit → Except ε β} {value : β} :
    (if c then throw fault >>= next else next ()) = .ok value ↔ ¬ c ∧ next () = .ok value := by
  by_cases hc : c
  · rw [if_pos hc]
    exact iff_of_false (fun h => nomatch h) fun h => h.1 hc
  · rw [if_neg hc, and_iff_right hc]

/-- Behind a check that may throw, a fault is that of the check or a later one. -/
theorem check_eq_error {c : Prop} [Decidable c] {fault other : ε} {next : Unit → Except ε β} :
    (if c then throw fault >>= next else next ()) = .error other ↔
      c ∧ fault = other ∨ ¬ c ∧ next () = .error other := by
  by_cases hc : c
  · rw [if_pos hc, and_iff_right hc, or_iff_left fun h => h.1 hc]
    exact ⟨Except.error.inj, congrArg Except.error⟩
  · rw [if_neg hc, and_iff_right hc, or_iff_right fun h => hc h.1]

/-- A step without a result of its own is passed exactly when it succeeds. -/
theorem unit_bind_eq_ok {first : Except ε Unit} {next : Unit → Except ε β} {value : β} :
    (first >>= next) = .ok value ↔ first = .ok () ∧ next () = .ok value :=
  bind_eq_ok.trans ⟨fun ⟨_, h⟩ => h, fun h => ⟨(), h⟩⟩

/-- A part that gives a value is continued from the state it reaches. -/
theorem bind_of_ok {part : EStateM ε σ α} {next : α → EStateM ε σ β} {before after : σ} {value : α}
    (h : part before = .ok value after) : (part >>= next) before = next value after := by
  change EStateM.bind part next before = _
  rw [EStateM.bind, h]

/-- A part that fails is not continued. -/
theorem bind_of_error {part : EStateM ε σ α} {next : α → EStateM ε σ β} {before after : σ}
    {fault : ε} (h : part before = .error fault after) :
    (part >>= next) before = .error fault after := by
  change EStateM.bind part next before = _
  rw [EStateM.bind, h]

/-- A state is looked at without a change. -/
theorem get_eq (state : σ) : (get : EStateM ε σ σ) state = .ok state state := rfl

end PeImage
