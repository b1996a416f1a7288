/-
Module: OpenCargo.Lib.Sliding
Purpose: Quotas over a sliding window, as they are meant: a log of what was let by, each entry under
  its key, and a request is let by while fewer than `max` of its key lie within the window behind it.
Trusted boundary: none
Main exports: Spread, Spread.note, Spread.recent_le, Spread.room_after_oldest
-/
import Mathlib.Data.List.Basic
import Mathlib.Tactic.Linarith

namespace OpenCargo.Lib

structure Quota where
  max : Nat
  window : Int
deriving Repr, DecidableEq, Inhabited

variable {κ : Type*} [DecidableEq κ]

/-- When entries of the key were made, in their order. -/
def timesOf (log : List (κ × Int)) (k : κ) : List Int :=
  (log.filter fun entry => entry.1 = k).map Prod.snd

def recent (times : List Int) (after : Int) : List Int := times.filter fun t => after < t

/-- The log after a request: an entry more, while there is room. -/
def note (quota : κ → Quota) (log : List (κ × Int)) (k : κ) (now : Int) : List (κ × Int) :=
  if (recent (timesOf log k) (now - (quota k).window)).length < (quota k).max then log ++ [(k, now)]
  else log

theorem timesOf_append {log : List (κ × Int)} {k k' : κ} {t : Int} :
    timesOf (log ++ [(k', t)]) k = timesOf log k ++ if k' = k then [t] else [] := by
  by_cases same : k' = k <;> simp [timesOf, same]

theorem mem_timesOf {log : List (κ × Int)} {k : κ} {t : Int} : t ∈ timesOf log k ↔ (k, t) ∈ log := by
  simp [timesOf]

/-- What is recent is recent of what was recent before. -/
theorem recent_recent {times : List Int} {before after : Int} (later : before ≤ after) :
    recent (recent times before) after = recent times after := by
  rw [recent, recent, List.filter_filter]
  apply List.filter_congr
  intro t _
  by_cases new : after < t
  · have : before < t := by omega
    simp [new, this]
  · simp [new]

/-- Any two times that meet `p` are less than `width` apart. -/
def Narrow (width : Int) (p : Int → Bool) : Prop :=
  ∀ a b, p a = true → p b = true → a - width < b

theorem narrow_fromStart (start width : Int) :
    Narrow width fun t => start ≤ t ∧ t < start + width := by
  intro a b first second
  simp only [decide_eq_true_eq] at first second
  omega

theorem narrow_toEnd (end_ width : Int) : Narrow width fun t => end_ - width < t ∧ t ≤ end_ := by
  intro a b first second
  simp only [decide_eq_true_eq] at first second
  omega

/-- No window holds more of a key than its quota. -/
structure Spread (quota : κ → Quota) (log : List (κ × Int)) (now : Int) : Prop where
  past : ∀ entry ∈ log, entry.2 ≤ now
  fits : ∀ k p, Narrow (quota k).window p → ((timesOf log k).filter p).length ≤ (quota k).max

namespace Spread

variable {quota : κ → Quota} {log : List (κ × Int)} {now later : Int} {k : κ}

theorem nil : Spread quota ([] : List (κ × Int)) now where
  past entry mem := by cases mem
  fits k p _ := by simp [timesOf]

theorem mono (spread : Spread quota log now) (le : now ≤ later) : Spread quota log later :=
  ⟨fun entry mem => (spread.past entry mem).trans le, spread.fits⟩

/-- A request is let by only while there is room behind it, and nothing lies ahead of it. -/
theorem note (spread : Spread quota log now) (k : κ) : Spread quota (note quota log k now) now := by
  rw [Lib.note]
  split
  · rename_i room
    refine ⟨fun entry mem => ?_, fun other p narrow => ?_⟩
    · rcases List.mem_append.mp mem with old | new
      · exact spread.past entry old
      · rw [List.mem_singleton.mp new]
    · rw [timesOf_append]
      by_cases own : k = other
      · subst own
        by_cases here : p now = true
        · have behind : (timesOf log k).filter p =
              (recent (timesOf log k) (now - (quota k).window)).filter p := by
            rw [recent, List.filter_filter]
            apply List.filter_congr
            intro t _
            cases held : p t with
            | false => rfl
            | true => simpa using narrow now t here held
          have shorter := List.length_filter_le p (recent (timesOf log k) (now - (quota k).window))
          simp only [if_true, List.filter_append, List.length_append, behind, List.filter_singleton,
            here, cond_true, List.length_singleton]
          omega
        · simp only [if_true, List.filter_append, List.filter_singleton, here, cond_false,
            List.append_nil]
          exact spread.fits k p narrow
      · simpa [own] using spread.fits other p narrow
  · exact spread

theorem recent_le (spread : Spread quota log now) (k : κ) :
    (recent (timesOf log k) (now - (quota k).window)).length ≤ (quota k).max := by
  have same : recent (timesOf log k) (now - (quota k).window) =
      (timesOf log k).filter fun t => now - (quota k).window < t ∧ t ≤ now := by
    rw [recent]
    apply List.filter_congr
    intro t mem
    have : t ≤ now := spread.past _ (mem_timesOf.mp mem)
    simp [this]
  rw [same]
  exact spread.fits k _ (narrow_toEnd now _)

/-- Once the window has slid past an entry that was recent, there is room. -/
theorem room_after_oldest (spread : Spread quota log now) {oldest : Int}
    (mem : oldest ∈ recent (timesOf log k) (now - (quota k).window)) (le : now ≤ later)
    (left : oldest ≤ later - (quota k).window) :
    (recent (timesOf log k) (later - (quota k).window)).length < (quota k).max := by
  have slid : recent (timesOf log k) (later - (quota k).window) =
      recent (recent (timesOf log k) (now - (quota k).window)) (later - (quota k).window) :=
    (recent_recent (by omega)).symm
  have dropped : (recent (recent (timesOf log k) (now - (quota k).window))
      (later - (quota k).window)).length <
        (recent (timesOf log k) (now - (quota k).window)).length :=
    List.length_filter_lt_length_iff_exists.mpr ⟨oldest, mem, by simpa using left⟩
  rw [slid]
  exact lt_of_lt_of_le dropped (spread.recent_le k)

end Spread

end OpenCargo.Lib
