/-
A map that may lose entries, told by its history.

What is held under a key was written by an earlier event, and nothing since
has ended it: nothing was written over it, nothing removed it, no lookup
found it gone. A step of an implementation keeps that account (`Accounts`)
as long as what it holds afterwards it either just wrote or held before.
-/
import Mathlib.Data.List.Basic

namespace Lib

variable {ε K E : Type*}

/-- How the events of a machine are read as events of a map. -/
structure MapReading (ε K E : Type*) where
  writes : ε → Option (K × E)
  /-- What was written under a key before the event no longer counts after it. -/
  ends : ε → K → Prop
  /-- The event is an answer from the map: under the key stood an entry like this. -/
  answers : ε → Option (K × (E → Prop))

variable (R : MapReading ε K E)

/-- The latest write under `k` was `e`, and nothing has ended it. -/
def MapReading.Owes (log : List ε) (k : K) (e : E) : Prop :=
  ∃ before ev after, log = before ++ ev :: after ∧ R.writes ev = some (k, e) ∧ ∀ ev' ∈ after, ¬ R.ends ev' k

/-- The map `held` is explained by the log, and so was every answer. -/
structure MapReading.Accounts (held : K → Option E) (log : List ε) : Prop where
  holds : ∀ k e, held k = some e → R.Owes log k e
  answered : ∀ before ev after k P, log = before ++ ev :: after → R.answers ev = some (k, P) →
    ∃ e, R.Owes before k e ∧ P e

/-- What a step may do to the map. -/
structure MapReading.Lossy (held held' : K → Option E) (ev : ε) : Prop where
  kept : ∀ k e, held' k = some e → R.writes ev = some (k, e) ∨ (held k = some e ∧ ¬ R.ends ev k)
  answer : ∀ k P, R.answers ev = some (k, P) → ∃ e, held k = some e ∧ P e

variable {R} {held held' : K → Option E} {log : List ε} {ev : ε}

theorem MapReading.Owes.snoc {k : K} {e : E} (h : R.Owes log k e) (hev : ¬ R.ends ev k) :
    R.Owes (log ++ [ev]) k e := by
  obtain ⟨before, w, after, rfl, hw, ha⟩ := h
  refine ⟨before, w, after ++ [ev], by simp, hw, fun ev' hm => ?_⟩
  rcases List.mem_append.mp hm with hm | hm
  · exact ha ev' hm
  · rw [List.mem_singleton.mp hm]
    exact hev

theorem MapReading.Accounts.nil (h : ∀ k, held k = none) : R.Accounts held [] :=
  ⟨fun k e he => by simp [h] at he, fun before ev after k P hl => by simp at hl⟩

theorem MapReading.Accounts.step (h : R.Accounts held log) (hs : R.Lossy held held' ev) :
    R.Accounts held' (log ++ [ev]) := by
  refine ⟨fun k e he => ?_, fun before ev' after k P hl ha => ?_⟩
  · rcases hs.kept k e he with hw | ⟨hold, hev⟩
    · exact ⟨log, ev, [], rfl, hw, by simp⟩
    · exact (h.holds k e hold).snoc hev
  · rcases List.eq_nil_or_concat after with rfl | ⟨after, last, rfl⟩
    · obtain ⟨rfl, rfl⟩ := List.append_singleton_inj.mp hl
      obtain ⟨e, he, hP⟩ := hs.answer k P ha
      exact ⟨e, h.holds k e he, hP⟩
    · rw [List.concat_eq_append, ← List.cons_append, ← List.append_assoc] at hl
      exact h.answered before ev' after k P (List.append_singleton_inj.mp hl).1 ha

theorem MapReading.Accounts.lose (h : R.Accounts held log) (hs : ∀ k e, held' k = some e → held k = some e) :
    R.Accounts held' log :=
  ⟨fun k e he => h.holds k e (hs k e he), h.answered⟩

end Lib
