/-!
# Checks

A check succeeds or names the first fault it meets. `require` is a single
condition and `requireAll` a check of every element of a list in order; a check
made of several in sequence succeeds exactly when all of them do
(`require_bind_eq_ok`, `requireAll_eq_ok`).
-/

namespace PermissionedLedger

variable {ε α β : Type}

/-- Succeeds if the condition holds. The fault is made only if it does not. -/
@[macro_inline]
def require (p : Prop) [Decidable p] (fault : ε) : Except ε Unit :=
  if p then .ok () else .error fault

/-- Checks the elements in order, up to the first fault. -/
def requireAll (check : α → Except ε Unit) : List α → Except ε Unit
  | [] => .ok ()
  | a :: as =>
    match check a with
    | .ok () => requireAll check as
    | .error e => .error e

@[simp] theorem require_eq_ok {p : Prop} [Decidable p] {fault : ε} {u : Unit} :
    require p fault = .ok u ↔ p := by
  unfold require
  split <;> simp_all

@[simp] theorem require_bind_eq_ok {p : Prop} [Decidable p] {fault : ε} {k : Unit → Except ε β}
    {b : β} : (require p fault >>= k) = .ok b ↔ p ∧ k () = .ok b := by
  unfold require
  split
  · simp_all only [true_and]; rfl
  · simp_all only [false_and, iff_false]; exact fun h => nomatch h

theorem requireAll_eq_ok {check : α → Except ε Unit} {as : List α} {u : Unit} :
    requireAll check as = .ok u ↔ ∀ a ∈ as, check a = .ok () := by
  induction as with
  | nil => simp [requireAll]
  | cons a as ih =>
    rw [requireAll]
    rcases hc : check a with e | v
    · simp [hc]
    · simp [hc, ih]

/-- The first element that occurs earlier in the list, if any does. -/
def firstRepeat? [DecidableEq α] : (seen : List α) → List α → Option α
  | _, [] => none
  | seen, a :: as => if a ∈ seen then some a else firstRepeat? (a :: seen) as

theorem firstRepeat?_eq_none [DecidableEq α] {seen as : List α} :
    firstRepeat? seen as = none ↔ as.Nodup ∧ ∀ a ∈ as, a ∉ seen := by
  induction as generalizing seen with
  | nil => simp [firstRepeat?]
  | cons a as ih =>
    rw [firstRepeat?]
    split
    · next h => simp [h]
    · next h =>
      rw [ih]
      simp only [List.nodup_cons, List.mem_cons, not_or]
      constructor
      · rintro ⟨hn, hs⟩
        exact ⟨⟨fun ha => (hs a ha).1 rfl, hn⟩, fun b hb => by
          rcases hb with rfl | hb
          · exact h
          · exact (hs b hb).2⟩
      · rintro ⟨⟨ha, hn⟩, hs⟩
        exact ⟨hn, fun b hb => ⟨fun e => ha (e ▸ hb), hs b (Or.inr hb)⟩⟩

end PermissionedLedger
