import Mathlib.Data.List.Basic

/-! # The last event that matters

Whether an event matters may depend on the events before it. -/

namespace Aibrix.Lib

open List

variable {E : Type} (matters : List E → E → Prop) (good : E → Prop)

def LastIs (events : List E) : Prop :=
  ∃ before e after, events = before ++ e :: after ∧ matters before e ∧ good e ∧
    ∀ mid e' rest, after = mid ++ e' :: rest → ¬ matters (before ++ e :: mid) e'

variable {matters good}

theorem not_lastIs_nil : ¬ LastIs matters good [] := by
  rintro ⟨before, e, after, hsp, _⟩
  simp at hsp

theorem append_singleton_cases {events before after : List E} {e e' : E} (h : events ++ [e] = before ++ e' :: after) :
    (events = before ∧ e = e' ∧ after = []) ∨ ∃ mid, after = mid ++ [e] ∧ events = before ++ e' :: mid := by
  rcases eq_nil_or_concat after with rfl | ⟨mid, last, rfl⟩
  · obtain ⟨hev, hls⟩ := append_inj' h rfl
    exact .inl ⟨hev, by simpa using hls, rfl⟩
  · have hsp : events ++ [e] = (before ++ e' :: mid) ++ [last] := by simpa using h
    obtain ⟨hev, hls⟩ := append_inj' hsp rfl
    exact .inr ⟨mid, by simpa using hls.symm, hev⟩

theorem lastIs_append_of_matters {events : List E} {e : E} (h : matters events e) :
    LastIs matters good (events ++ [e]) ↔ good e := by
  constructor
  · rintro ⟨before, e', after, hsp, -, hgd, hls⟩
    rcases append_singleton_cases hsp with ⟨-, rfl, -⟩ | ⟨mid, rfl, rfl⟩
    · exact hgd
    · exact absurd h (hls mid e [] rfl)
  · intro hgd
    exact ⟨events, e, [], rfl, h, hgd, by simp⟩

theorem lastIs_append_of_not_matters {events : List E} {e : E} (h : ¬ matters events e) :
    LastIs matters good (events ++ [e]) ↔ LastIs matters good events := by
  constructor
  · rintro ⟨before, e', after, hsp, hmt, hgd, hls⟩
    rcases append_singleton_cases hsp with ⟨rfl, rfl, -⟩ | ⟨mid, rfl, rfl⟩
    · exact absurd hmt h
    · refine ⟨before, e', mid, rfl, hmt, hgd, fun mid' e'' rest hmid => hls mid' e'' (rest ++ [e]) ?_⟩
      rw [hmid, append_assoc, cons_append]
  · rintro ⟨before, e', after, rfl, hmt, hgd, hls⟩
    refine ⟨before, e', after ++ [e], by simp, hmt, hgd, fun mid e'' rest hsp => ?_⟩
    rcases append_singleton_cases hsp with ⟨rfl, rfl, -⟩ | ⟨mid', rfl, rfl⟩
    · exact h
    · exact hls mid e'' mid' rfl

end Aibrix.Lib
