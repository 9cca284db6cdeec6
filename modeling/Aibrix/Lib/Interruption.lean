import Mathlib.Data.List.Basic

/-! # Programs of operations on a store

A program runs one operation on the store after the other and returns a value or fails. -/

namespace Aibrix.Lib

open List

structure Trace (σ ε α : Type) where
  points : List σ
  result : Except ε α
  final : σ

def Proc (σ ε α : Type) := σ → Trace σ ε α

namespace Proc

variable {σ ε α β : Type}

def op (f : σ → Except ε α × σ) : Proc σ ε α := fun s => ⟨[s], (f s).1, (f s).2⟩

protected def pure (a : α) : Proc σ ε α := fun s => ⟨[], .ok a, s⟩

def fail (e : ε) : Proc σ ε α := fun s => ⟨[], .error e, s⟩

protected def bind (p : Proc σ ε α) (f : α → Proc σ ε β) : Proc σ ε β := fun s =>
  match (p s).result with
  | .ok a => ⟨(p s).points ++ (f a (p s).final).points, (f a (p s).final).result,
      (f a (p s).final).final⟩
  | .error e => ⟨(p s).points, .error e, (p s).final⟩

instance : Monad (Proc σ ε) where
  pure := Proc.pure
  bind := Proc.bind

/-- A failure becomes a value; an interruption does not. -/
def attempt (p : Proc σ ε α) : Proc σ ε (Except ε α) := fun s =>
  ⟨(p s).points, .ok (p s).result, (p s).final⟩

def fold (f : β → α → Proc σ ε β) : List α → β → Proc σ ε β
  | [], acc => pure acc
  | x :: xs, acc => f acc x >>= fold f xs

/-! ## Runs to the end -/

/-- Run from `s`, the program returns `a` and leaves `s'`. -/
def Returns (p : Proc σ ε α) (s : σ) (a : α) (s' : σ) : Prop :=
  (p s).result = .ok a ∧ (p s).final = s'

variable {p : Proc σ ε α} {f : α → Proc σ ε β} {s s' s'' : σ} {a : α} {b : β}

theorem Returns.pure (a : α) (s : σ) : Returns (Pure.pure a : Proc σ ε α) s a s := ⟨rfl, rfl⟩

theorem Returns.op {g : σ → Except ε α × σ} (h : g s = (.ok a, s')) : Returns (op g) s a s' := by
  simp [Returns, Proc.op, h]

theorem Returns.bind (hp : Returns p s a s') (hf : Returns (f a) s' b s'') : Returns (p >>= f) s b s'' := by
  obtain ⟨hrs, rfl⟩ := hp
  change Returns (Proc.bind p f) s b s''
  unfold Returns Proc.bind
  rw [hrs]
  exact hf

theorem Returns.bind_result (hp : Returns p s a s') : ((p >>= f) s).result = (f a s').result := by
  obtain ⟨hresult, hfinal⟩ := hp
  change (Proc.bind p f s).result = _
  unfold Proc.bind
  rw [hresult, ← hfinal]

theorem bind_error {e : ε} (h : (p s).result = .error e) : ((p >>= f) s).result = .error e := by
  change (Proc.bind p f s).result = _
  unfold Proc.bind
  rw [h]

theorem Returns.unique {a' : α} (h : Returns p s a s') (h' : Returns p s a' s'') : a' = a ∧ s'' = s' := by
  obtain ⟨hrs, rfl⟩ := h
  obtain ⟨hrs', rfl⟩ := h'
  rw [hrs] at hrs'
  cases hrs'
  exact ⟨rfl, rfl⟩

theorem Returns.attempt (p : Proc σ ε α) (s : σ) : Returns (attempt p) s (p s).result (p s).final := ⟨rfl, rfl⟩

theorem Returns.fold {f : β → α → Proc σ ε β} {g : β → α → β} {h : σ → α → σ} {P : σ → Prop}
    {xs : List α} (hst : ∀ x ∈ xs, ∀ acc s, P s → Returns (f acc x) s (g acc x) (h s x))
    (hkp : ∀ x ∈ xs, ∀ s, P s → P (h s x)) (acc : β) (hs : P s) :
    Returns (fold f xs acc) s (xs.foldl g acc) (xs.foldl h s) := by
  induction xs generalizing acc s with
  | nil => exact .pure acc s
  | cons x xs ih =>
    apply (hst x mem_cons_self acc s hs).bind
    apply ih
    · exact fun y hy => hst y (mem_cons_of_mem _ hy)
    · exact fun y hy => hkp y (mem_cons_of_mem _ hy)
    · exact hkp x mem_cons_self s hs

theorem Returns.fold_reads {f : β → α → Proc σ ε β} {g : β → α → β} {xs : List α}
    (hst : ∀ x ∈ xs, ∀ acc, Returns (f acc x) s (g acc x) s) (acc : β) :
    Returns (Proc.fold f xs acc) s (xs.foldl g acc) s := by
  have hrun := Returns.fold (h := fun s _ => s) (P := fun t => t = s)
    (fun x hx acc t ht => ht ▸ hst x hx acc) (fun _ _ _ ht => ht) acc rfl
  have hsm : ∀ ys : List α, ys.foldl (fun t _ => t) s = s := by
    intro ys
    induction ys with
    | nil => rfl
    | cons _ _ ih => exact ih
  rwa [hsm] at hrun

/-! ## Interrupted runs -/

/-- Wherever the run is interrupted, and at its end, the store has the property. -/
def Throughout (P : σ → Prop) (p : Proc σ ε α) (s : σ) : Prop :=
  (∀ t ∈ (p s).points, P t) ∧ P (p s).final

variable {P : σ → Prop}

theorem Throughout.pure (a : α) (hs : P s) : Throughout P (Pure.pure a : Proc σ ε α) s :=
  ⟨nofun, hs⟩

theorem Throughout.fail (e : ε) (hs : P s) : Throughout P (fail e : Proc σ ε α) s := ⟨nofun, hs⟩

theorem Throughout.op {g : σ → Except ε α × σ} (hs : P s) (hnx : P (g s).2) : Throughout P (op g) s := by
  refine ⟨?_, hnx⟩
  intro t ht
  cases mem_singleton.1 ht
  exact hs

theorem Throughout.attempt (h : Throughout P p s) : Throughout P (attempt p) s := h

theorem Throughout.bind (hp : Throughout P p s)
    (hf : ∀ a s', Returns p s a s' → Throughout P (f a) s') : Throughout P (p >>= f) s := by
  change Throughout P (Proc.bind p f) s
  unfold Throughout Proc.bind
  cases hrl : (p s).result with
  | error e => exact hp
  | ok a =>
    have hrs := hf a (p s).final ⟨hrl, rfl⟩
    refine ⟨?_, hrs.2⟩
    intro t ht
    rcases mem_append.1 ht with hbf | haf
    · exact hp.1 t hbf
    · exact hrs.1 t haf

theorem Throughout.final (h : Throughout P p s) (hr : Returns p s a s') : P s' := hr.2 ▸ h.2

theorem Throughout.seq (hp : Throughout P p s) (hf : ∀ a t, P t → Throughout P (f a) t) :
    Throughout P (p >>= f) s := hp.bind fun a t hr => hf a t (hp.final hr)

theorem Throughout.imp {Q : σ → Prop} (h : Throughout P p s) (himp : ∀ t, P t → Q t) :
    Throughout Q p s := ⟨fun t ht => himp t (h.1 t ht), himp _ h.2⟩

theorem Throughout.fold {f : β → α → Proc σ ε β} {xs : List α}
    (hst : ∀ x ∈ xs, ∀ acc s, P s → Throughout P (f acc x) s) (acc : β) (hs : P s) :
    Throughout P (Proc.fold f xs acc) s := by
  induction xs generalizing acc s with
  | nil => exact .pure acc hs
  | cons x xs ih =>
    apply (hst x mem_cons_self acc s hs).seq
    intro acc' t ht
    exact ih (fun y hy => hst y (mem_cons_of_mem _ hy)) acc' ht

end Proc

end Aibrix.Lib
