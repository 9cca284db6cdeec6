import Aibrix.Lib.Charges

/-! # A ledger of charges that are released once

A charge is recorded under a key, added to one counter for each of its slots, and taken off again. -/

namespace Aibrix.Lib

open List Multiset Function

structure Charge (K F X : Type) where
  key : K
  payload : X
  released : F → Bool

structure Ledger (K F X : Type) where
  current : K → Option Nat
  charge : Nat → Charge K F X
  made : Nat

structure SlotFamily (F P : Type) where
  flag : P → F
  slots : F → List P
  mem_slots : ∀ f p, p ∈ slots f ↔ flag p = f
  nodup : ∀ f, (slots f).Nodup
  flags : List F
  mem_flags : ∀ f, f ∈ flags
  nodup_flags : flags.Nodup

inductive LedgerCmd (F P : Type) where
  | charge (p : P) (e : Nat)
  | release (f : F) (e : Nat)
  | uncharge (p : P) (e : Nat)
  | forgetIfReleased (e : Nat)
  | forget (e : Nat)
  deriving DecidableEq

variable {K F P X : Type}

def LedgerCmd.about : LedgerCmd F P → Nat
  | .charge _ e | .release _ e | .uncharge _ e | .forgetIfReleased e | .forget e => e

def LedgerCmd.counts : LedgerCmd F P → Bool
  | .charge .. | .uncharge .. => true
  | _ => false

namespace SlotFamily

variable (fam : SlotFamily F P)

def all : List P := fam.flags.flatMap fam.slots

def charges (e : Nat) : List (LedgerCmd F P) := fam.all.map (.charge · e)

def releases (e : Nat) : List (LedgerCmd F P) := fam.flags.map (.release · e)

/-- What a release leaves to do. -/
def afterRelease (f : F) (e : Nat) : List (LedgerCmd F P) :=
  (fam.slots f).map (.uncharge · e) ++ [.forgetIfReleased e]

variable {fam} {c : LedgerCmd F P} {p : P} {f : F} {e : Nat}

theorem mem_all (p : P) : p ∈ fam.all :=
  mem_flatMap.2 ⟨fam.flag p, fam.mem_flags _, (fam.mem_slots _ p).2 rfl⟩

theorem nodup_all : fam.all.Nodup := by
  refine nodup_flatMap.2 ⟨fun f _ => fam.nodup f, fam.nodup_flags.imp fun hne => ?_⟩
  intro p hp hp'
  exact hne (((fam.mem_slots _ p).1 hp).symm.trans ((fam.mem_slots _ p).1 hp'))

theorem mem_charges (hc : c ∈ fam.charges e) : ∃ p, c = .charge p e := by
  obtain ⟨p, _, rfl⟩ := mem_map.1 hc
  exact ⟨p, rfl⟩

theorem mem_releases : c ∈ fam.releases e ↔ ∃ f, c = .release f e := by
  simp [releases, fam.mem_flags, eq_comm]

@[simp] theorem mem_afterRelease :
    c ∈ fam.afterRelease f e ↔ (∃ p, fam.flag p = f ∧ c = .uncharge p e) ∨ c = .forgetIfReleased e := by
  simp [afterRelease, fam.mem_slots, eq_comm]

variable [DecidableEq F] [DecidableEq P]

theorem count_charges (p : P) (e e' : Nat) : (fam.charges e).count (.charge p e') = if e' = e then 1 else 0 := by
  have hnd : (fam.charges e).Nodup := fam.nodup_all.map fun a b h => by cases h; rfl
  rw [hnd.count]
  simp [charges, mem_all, eq_comm]

open LedgerCmd

theorem count_afterRelease (p : P) (e' : Nat) :
    (fam.afterRelease f e).count (.uncharge p e') = if fam.flag p = f ∧ e' = e then 1 else 0 := by
  rw [afterRelease, count_append]
  have hnd : ((fam.slots f).map (uncharge (F := F) · e)).Nodup :=
    (fam.nodup f).map fun a b h => by cases h; rfl
  have hmem : uncharge p e' ∈ (fam.slots f).map (uncharge (F := F) · e) ↔ fam.flag p = f ∧ e' = e := by
    simp [fam.mem_slots, eq_comm]
  rw [hnd.count]
  exact if_congr hmem rfl rfl

end SlotFamily

namespace Ledger

variable [DecidableEq F] [DecidableEq P] (fam : SlotFamily F P)

def record [DecidableEq K] (l : Ledger K F X) (key : K) (payload : X) : Ledger K F X where
  current := update l.current key (some l.made)
  charge := update l.charge l.made ⟨key, payload, fun _ => false⟩
  made := l.made + 1

def setReleased (l : Ledger K F X) (f : F) (e : Nat) : Ledger K F X :=
  { l with charge := update l.charge e
             { l.charge e with released := update (l.charge e).released f true } }

/-- What recording a charge under a key does next: it releases the charge it replaced, and adds the new one. -/
def afterRecord (l : Ledger K F X) (key : K) : List (LedgerCmd F P) :=
  (l.current key).elim [] fam.releases ++ fam.charges l.made

def exec [DecidableEq K] : LedgerCmd F P → Ledger K F X → Ledger K F X × List (LedgerCmd F P)
  | .charge _ _, l | .uncharge _ _, l => (l, [])
  | .release f e, l =>
    if (l.charge e).released f then (l, [])
    else (l.setReleased f e, fam.afterRelease f e)
  | .forgetIfReleased e, l => (l, if fam.flags.all (l.charge e).released then [.forget e] else [])
  | .forget e, l =>
    let key := (l.charge e).key
    (if l.current key = some e then { l with current := update l.current key none } else l, [])

def Held (l : Ledger K F X) (M : Multiset (LedgerCmd F P)) (p : P) (e : Nat) : Prop :=
  .charge p e ∉ M ∧ ((l.charge e).released (fam.flag p) = false ∨ .uncharge p e ∈ M)

structure Staged (l : Ledger K F X) (M : Multiset (LedgerCmd F P)) : Prop where
  made : ∀ c ∈ M, c.about < l.made
  charge : ∀ p e, M.count (.charge p e) ≤ if (l.charge e).released (fam.flag p) then 0 else 1
  uncharge : ∀ p e, M.count (.uncharge p e) ≤ if (l.charge e).released (fam.flag p) then 1 else 0
  release : ∀ p e, .release (fam.flag p) e ∈ M → .charge p e ∉ M

structure Recorded (l : Ledger K F X) (M : Multiset (LedgerCmd F P)) : Prop where
  found : ∀ key e, l.current key = some e → e < l.made ∧ (l.charge e).key = key
  outside : ∀ e < l.made, l.current (l.charge e).key ≠ some e → ∀ f, (l.charge e).released f = true ∨ .release f e ∈ M
  inside : ∀ e < l.made, l.current (l.charge e).key = some e → (∀ f, (l.charge e).released f = true) →
    .forgetIfReleased e ∈ M ∨ .forget e ∈ M
  forget : ∀ e, .forget e ∈ M → ∀ f, (l.charge e).released f = true

structure Conserved (l : Ledger K F X) (M : Multiset (LedgerCmd F P)) : Prop extends
  l.Staged fam M, l.Recorded M

variable {fam} {l l' : Ledger K F X} {M M' : Multiset (LedgerCmd F P)} {c : LedgerCmd F P}
  {commands : List (LedgerCmd F P)} {p : P} {f : F} {e : Nat}

/-! ### Stages -/

theorem Staged.of_le (h : l.Staged fam M) (hle : M' ≤ M) (hch : l'.charge = l.charge) (hmd : l'.made = l.made) :
    l'.Staged fam M' := by
  refine ⟨fun c hc => ?_, fun p e => ?_, fun p e => ?_, fun p e hr hc => ?_⟩
  · rw [hmd]
    exact h.made c (mem_of_le hle hc)
  · rw [hch]
    exact (count_le_of_le _ hle).trans (h.charge p e)
  · rw [hch]
    exact (count_le_of_le _ hle).trans (h.uncharge p e)
  · exact h.release p e (mem_of_le hle hr) (mem_of_le hle hc)

theorem Staged.tail (h : l.Staged fam (c ::ₘ M)) : l.Staged fam M := h.of_le (le_cons_self M c) rfl rfl

theorem Staged.push (h : l.Staged fam M) (hcn : ∀ c ∈ commands, c.counts = false)
    (hmd : ∀ c ∈ commands, c.about < l.made)
    (hrl : ∀ p e, .release (fam.flag p) e ∈ commands → .charge p e ∉ M) : l.Staged fam (↑commands + M) := by
  have hzr : ∀ c : LedgerCmd F P, c.counts = true → commands.count c = 0 := by
    intro c hc
    rw [List.count_eq_zero]
    intro hmem
    simp [hcn c hmem] at hc
  refine ⟨fun c hc => ?_, fun p e => ?_, fun p e => ?_, fun p e hr hc => ?_⟩
  · obtain hc | hc := mem_add.1 hc
    · exact hmd c hc
    · exact h.made c hc
  · rw [count_add, coe_count, hzr _ rfl, zero_add]
    exact h.charge p e
  · rw [count_add, coe_count, hzr _ rfl, zero_add]
    exact h.uncharge p e
  · have hcM : .charge p e ∈ M := by
      obtain hc | hc := mem_add.1 hc
      · simpa [LedgerCmd.counts] using hcn _ hc
      · exact hc
    obtain hr | hr := mem_add.1 hr
    · exact hrl p e hr hcM
    · exact h.release p e hr hcM

theorem Staged.head_lt (h : l.Staged fam (c ::ₘ M)) : c.about < l.made := h.made c (mem_cons_self c M)

theorem Staged.charge_head (h : l.Staged fam (.charge p e ::ₘ M)) :
    (l.charge e).released (fam.flag p) = false ∧ .charge p e ∉ M := by
  have hcn := h.charge p e
  rw [Multiset.count_cons_self] at hcn
  split at hcn
  · omega
  · rename_i hrl
    exact ⟨by simpa using hrl, count_eq_zero.1 (by omega)⟩

theorem Staged.uncharge_head (h : l.Staged fam (.uncharge p e ::ₘ M)) :
    (l.charge e).released (fam.flag p) = true ∧ .uncharge p e ∉ M := by
  have hcn := h.uncharge p e
  rw [Multiset.count_cons_self] at hcn
  split at hcn
  · exact ⟨‹_›, count_eq_zero.1 (by omega)⟩
  · omega

theorem Staged.charge_not_mem_of_released (h : l.Staged fam M) (hrl : (l.charge e).released (fam.flag p) = true) :
    .charge p e ∉ M := by
  have hcn := h.charge p e
  rw [if_pos hrl] at hcn
  exact count_eq_zero.1 (Nat.le_zero.1 hcn)

theorem Staged.uncharge_not_mem_of_free (h : l.Staged fam M) (hfr : (l.charge e).released (fam.flag p) = false) :
    .uncharge p e ∉ M := by
  have hcn := h.uncharge p e
  rw [if_neg (by simp [hfr])] at hcn
  exact count_eq_zero.1 (Nat.le_zero.1 hcn)

theorem setReleased_released (l : Ledger K F X) (f f' : F) (e e' : Nat) :
    ((l.setReleased f e).charge e').released f' = ((e' = e ∧ f' = f) || (l.charge e').released f') := by
  by_cases he : e' = e
  · subst he
    by_cases hf : f' = f
    · subst hf
      simp [setReleased]
    · simp [setReleased, hf]
  · simp [setReleased, he]

@[simp] theorem setReleased_key (l : Ledger K F X) (f : F) (e e' : Nat) :
    ((l.setReleased f e).charge e').key = (l.charge e').key := by
  by_cases he : e' = e
  · subst he
    simp [setReleased]
  · simp [setReleased, he]

@[simp] theorem setReleased_payload (l : Ledger K F X) (f : F) (e e' : Nat) :
    ((l.setReleased f e).charge e').payload = (l.charge e').payload := by
  by_cases he : e' = e
  · subst he
    simp [setReleased]
  · simp [setReleased, he]

open SlotFamily

theorem Staged.flip (h : l.Staged fam (.release f e ::ₘ M)) (hfr : (l.charge e).released f = false) :
    (l.setReleased f e).Staged fam (↑(fam.afterRelease f e) + M) := by
  have hmd : e < l.made := h.head_lt
  have hrs := h.tail
  refine ⟨fun c hc => ?_, fun p e' => ?_, fun p e' => ?_, fun p e' hr hc => ?_⟩
  · obtain hc | hc := mem_add.1 hc
    · obtain ⟨p, _, rfl⟩ | rfl := SlotFamily.mem_afterRelease.1 (mem_coe.1 hc) <;> exact hmd
    · exact hrs.made c hc
  · have hcn := hrs.charge p e'
    have hzr : (fam.afterRelease f e).count (.charge p e') = 0 := by
      rw [List.count_eq_zero]
      simp
    rw [count_add, coe_count, hzr, setReleased_released]
    by_cases hsm : e' = e ∧ fam.flag p = f
    · obtain ⟨rfl, rfl⟩ := hsm
      have hnot : LedgerCmd.charge p e' ∉ M := fun hc =>
        h.release p e' (mem_cons_self _ _) (mem_cons_of_mem hc)
      rw [count_eq_zero.2 hnot]
      omega
    · simpa [hsm] using hcn
  · have hcn := hrs.uncharge p e'
    rw [count_add, coe_count, SlotFamily.count_afterRelease, setReleased_released]
    by_cases hsm : e' = e ∧ fam.flag p = f
    · obtain ⟨rfl, rfl⟩ := hsm
      rw [count_eq_zero.2 (hrs.uncharge_not_mem_of_free hfr)]
      simp
    · rw [if_neg fun h => hsm h.symm, zero_add]
      simpa [hsm] using hcn
  · have hr' : LedgerCmd.release (fam.flag p) e' ∈ M := by simpa using hr
    exact hrs.release p e' hr' (by simpa using hc)

section
variable [DecidableEq K] {key : K} {payload : X}

section

omit [DecidableEq F]

@[simp] theorem record_made (l : Ledger K F X) : (l.record key payload).made = l.made + 1 := rfl

@[simp] theorem record_charge_made (l : Ledger K F X) :
    (l.record key payload).charge l.made = ⟨key, payload, fun _ => false⟩ := update_self _ _ _

theorem record_charge_of_lt (he : e < l.made) : (l.record key payload).charge e = l.charge e :=
  update_of_ne (ne_of_lt he) _ _

end

omit [DecidableEq K] in
theorem Staged.count_made (h : l.Staged fam M) (hc : c.about = l.made) : M.count c = 0 :=
  count_eq_zero.2 fun hmem => absurd (h.made c hmem) (by omega)

open Ledger

theorem Staged.record (h : l.Staged fam M) : (l.record key payload).Staged fam (↑(fam.charges l.made) + M) := by
  refine ⟨fun c hc => ?_, fun p e => ?_, fun p e => ?_, fun p e hr hc => ?_⟩
  · obtain hc | hc := mem_add.1 hc
    · obtain ⟨p, rfl⟩ := SlotFamily.mem_charges hc
      exact Nat.lt_succ_self _
    · exact (h.made c hc).trans (Nat.lt_succ_self _)
  · rw [count_add, coe_count, SlotFamily.count_charges]
    by_cases he : e = l.made
    · subst he
      simp [h.count_made (c := LedgerCmd.charge p l.made) rfl]
    · simpa [Ledger.record, he] using h.charge p e
  · have hzr : (fam.charges l.made).count (.uncharge p e) = 0 := by
      rw [List.count_eq_zero]
      intro hmem
      obtain ⟨_, heq⟩ := SlotFamily.mem_charges hmem
      cases heq
    rw [count_add, coe_count, hzr]
    by_cases he : e = l.made
    · subst he
      simp [h.count_made (c := LedgerCmd.uncharge p l.made) rfl]
    · simpa [Ledger.record, he] using h.uncharge p e
  · have hr' : LedgerCmd.release (fam.flag p) e ∈ M := by
      obtain hr | hr := mem_add.1 hr
      · obtain ⟨_, heq⟩ := SlotFamily.mem_charges hr
        cases heq
      · exact hr
    have hlt : e < l.made := h.made _ hr'
    obtain hc | hc := mem_add.1 hc
    · obtain ⟨_, heq⟩ := SlotFamily.mem_charges hc
      cases heq
      omega
    · exact h.release p e hr' hc

end

/-! ### The ledger -/

section

omit [DecidableEq F] [DecidableEq P]

theorem Recorded.push (h : l.Recorded M) (hfr : ∀ e, .forget e ∈ commands → ∀ f, (l.charge e).released f = true) :
    l.Recorded (↑commands + M : Multiset (LedgerCmd F P)) := by
  refine ⟨h.found, fun e he hout f => ?_, fun e he hin hall => ?_, fun e hmem => ?_⟩
  · exact (h.outside e he hout f).imp_right fun hr => mem_add.2 (.inr hr)
  · exact (h.inside e he hin hall).imp (fun hr => mem_add.2 (.inr hr)) fun hr => mem_add.2 (.inr hr)
  · obtain hmem | hmem := mem_add.1 hmem
    · exact hfr e hmem
    · exact h.forget e hmem

theorem Recorded.drop (h : l.Recorded (c ::ₘ M)) (hrl : ∀ f e, c = .release f e → (l.charge e).released f = true)
    (hfr : ∀ e, c = .forgetIfReleased e ∨ c = .forget e → l.current (l.charge e).key = some e →
      ∃ f, (l.charge e).released f = false) : l.Recorded M := by
  refine ⟨h.found, fun e he hout f => ?_, fun e he hin hall => ?_, fun e hmem =>
    h.forget e (mem_cons_of_mem hmem)⟩
  · obtain hr | hr := h.outside e he hout f
    · exact .inl hr
    · obtain heq | hr := mem_cons.1 hr
      · exact .inl (hrl f e heq.symm)
      · exact .inr hr
  have hkp : c ≠ .forgetIfReleased e ∧ c ≠ .forget e := by
    rw [← not_or]
    intro heq
    obtain ⟨f, hf⟩ := hfr e heq hin
    simp [hall f] at hf
  simpa [Multiset.mem_cons, hkp.1.symm, hkp.2.symm] using h.inside e he hin hall

end

omit [DecidableEq P] in
theorem Recorded.flip (h : l.Recorded (.release f e ::ₘ M)) :
    (l.setReleased f e).Recorded (↑(fam.afterRelease f e) + M : Multiset (LedgerCmd F P)) := by
  refine ⟨fun key e' he' => ?_, fun e' he' hout f' => ?_, fun e' he' hin hall => ?_, fun e' hmem f' => ?_⟩
  · rw [setReleased_key]
    exact h.found key e' he'
  · rw [setReleased_key] at hout
    have hbf := h.outside e' he' hout f'
    rw [setReleased_released]
    by_cases hsm : e' = e ∧ f' = f
    · exact .inl (by simp [hsm])
    · have hne : ¬ (f' = f ∧ e' = e) := fun h => hsm h.symm
      simpa [hsm, hne] using hbf
  · rw [setReleased_key] at hin
    by_cases he : e' = e
    · exact .inl (by simp [he])
    have hbf : ∀ f', (l.charge e').released f' = true := by
      intro f'
      simpa [setReleased_released, he] using hall f'
    simpa [he] using h.inside e' he' hin hbf
  · have hmem' : LedgerCmd.forget e' ∈ M := by simpa using hmem
    rw [setReleased_released, h.forget e' (mem_cons_of_mem hmem') f', Bool.or_true]

omit [DecidableEq F] [DecidableEq P] in
theorem Recorded.forgetting (h : l.Recorded (.forgetIfReleased e ::ₘ M))
    (hall : ∀ f, (l.charge e).released f = true) : l.Recorded (.forget e ::ₘ M) := by
  refine ⟨h.found, fun e' he' hout f => ?_, fun e' he' hin hall' => ?_, fun e' hmem => ?_⟩
  · simpa using h.outside e' he' hout f
  · by_cases he : e' = e
    · exact .inr (by simp [he])
    · simpa [he] using h.inside e' he' hin hall'
  · by_cases he : e' = e
    · exact he ▸ hall
    · exact h.forget e' (by simpa [he] using hmem)

section
variable [DecidableEq K] {key : K} {payload : X}

omit [DecidableEq P] in
theorem Recorded.forgotten (h : l.Recorded (.forget e ::ₘ M)) : (exec fam (.forget e) l).1.Recorded M := by
  have hrl := h.forget e (mem_cons_self _ _)
  simp only [exec]
  split
  · rename_i hin
    have hdr : ∀ key e', update l.current (l.charge e).key none key = some e' → l.current key = some e' := by
      intro key e' he'
      by_cases hkey : key = (l.charge e).key
      · simp [hkey] at he'
      · simpa [hkey] using he'
    refine ⟨fun key e' he' => h.found key e' (hdr key e' he'), fun e' he' hout f => ?_,
      fun e' he' hin' hall => ?_, fun e' hmem => h.forget e' (mem_cons_of_mem hmem)⟩
    · by_cases he : e' = e
      · exact .inl (he ▸ hrl f)
      have hbf : l.current (l.charge e').key ≠ some e' := by
        intro heq
        by_cases hkey : (l.charge e').key = (l.charge e).key
        · rw [hkey, hin] at heq
          exact he (Option.some.inj heq).symm
        · exact hout (by simpa [hkey] using heq)
      simpa using h.outside e' he' hbf f
    · have hne : e' ≠ e := by
        rintro rfl
        simp at hin'
      simpa [hne] using h.inside e' he' (hdr _ _ hin') hall
  · refine h.drop (fun _ _ heq => by cases heq) fun e' heq hin => ?_
    rcases heq with heq | heq <;> cases heq
    contradiction

theorem Recorded.record [Nonempty F] (h : l.Recorded M) (hst : l.Staged fam M) : (l.record key payload).Recorded
      (↑((l.current key).elim [] fam.releases) + M : Multiset (LedgerCmd F P)) := by
  refine ⟨fun key' e he => ?_, fun e he hout f => ?_, fun e he hin hall => ?_, fun e hmem f => ?_⟩
  · by_cases hkey : key' = key
    · subst hkey
      obtain rfl : l.made = e := by simpa [Ledger.record] using he
      exact ⟨Nat.lt_succ_self _, by simp⟩
    · have hbf := h.found key' e (by simpa [Ledger.record, hkey] using he)
      exact ⟨hbf.1.trans (Nat.lt_succ_self _), by rw [record_charge_of_lt hbf.1]; exact hbf.2⟩
  · by_cases hls : e = l.made
    · subst hls
      simp [Ledger.record] at hout
    have hlt : e < l.made := lt_of_le_of_ne (Nat.lt_succ_iff.1 he) hls
    rw [record_charge_of_lt hlt] at hout ⊢
    by_cases hold : l.current (l.charge e).key = some e
    · -- The new charge took this one's place, and releases it.
      right
      have hkey : (l.charge e).key = key := by
        by_contra hkey
        simp [Ledger.record, hkey, hold] at hout
      rw [hkey] at hold
      rw [hold]
      exact mem_add.2 (.inl (SlotFamily.mem_releases.2 ⟨f, rfl⟩))
    · exact (h.outside e hlt hold f).imp_right fun hr => mem_add.2 (.inr hr)
  · have hlt : e < l.made := by
      apply lt_of_le_of_ne (Nat.lt_succ_iff.1 he)
      rintro rfl
      simpa using hall (Classical.arbitrary F)
    rw [record_charge_of_lt hlt] at hin hall
    have hkey : (l.charge e).key ≠ key := by
      intro hkey
      simp [Ledger.record, hkey] at hin
      omega
    have hbf := h.inside e hlt (by simpa [Ledger.record, hkey] using hin) hall
    exact hbf.imp (fun hm => mem_add.2 (.inr hm)) fun hm => mem_add.2 (.inr hm)
  · have hmem' : LedgerCmd.forget e ∈ M := by
      cases hold : l.current key <;> simpa [hold, SlotFamily.releases] using hmem
    have hlt : e < l.made := hst.made _ hmem'
    rw [record_charge_of_lt hlt]
    exact h.forget e hmem' f

/-! ### Every command -/

section

variable (l : Ledger K F X)

section

omit [DecidableEq P]

theorem exec_charge (p : P) (e : Nat) : exec fam (.charge p e) l = (l, []) := rfl

theorem exec_uncharge (p : P) (e : Nat) : exec fam (.uncharge p e) l = (l, []) := rfl

@[simp] theorem exec_made (c : LedgerCmd F P) : (exec fam c l).1.made = l.made := by
  cases c with
  | charge | uncharge | forgetIfReleased => rfl
  | release f e | forget e =>
    simp only [exec]
    split <;> rfl

@[simp] theorem exec_payload (c : LedgerCmd F P) (e : Nat) :
    ((exec fam c l).1.charge e).payload = (l.charge e).payload := by
  cases c with
  | charge | uncharge | forgetIfReleased => rfl
  | release f e' =>
    simp only [exec]
    split
    · rfl
    · exact setReleased_payload l f e' e
  | forget e' =>
    simp only [exec]
    split <;> rfl

end

omit [DecidableEq F] [DecidableEq P] [DecidableEq K] in
theorem made_of_charge_mem_afterRecord (h : .charge p e ∈ l.afterRecord fam key) : e = l.made := by
  obtain h | h := mem_append.1 h
  · cases hfn : l.current key with
    | none => simp [hfn] at h
    | some e' =>
      rw [hfn] at h
      obtain ⟨_, heq⟩ := mem_releases.1 h
      cases heq
  · obtain ⟨_, heq⟩ := mem_charges h
    cases heq
    rfl

omit [DecidableEq P] in
theorem charge_not_mem_exec (c : LedgerCmd F P) (p : P) (e : Nat) : .charge p e ∉ (exec fam c l).2 := by
  cases c with
  | charge | uncharge | forget => simp [exec]
  | release f e' | forgetIfReleased e' =>
    simp only [exec]
    split <;> simp

end

omit [DecidableEq F] [DecidableEq P] [DecidableEq K] in
theorem all_released_iff : fam.flags.all (l.charge e).released = true ↔ ∀ f, (l.charge e).released f = true := by
  simp [all_eq_true, fam.mem_flags]

theorem Conserved.exec (h : l.Conserved fam (c ::ₘ M)) : (exec fam c l).1.Conserved fam (↑(exec fam c l).2 + M) := by
  have htl := h.toStaged.tail
  cases c with
  | charge p e =>
    rw [exec_charge, coe_nil, zero_add]
    exact ⟨htl, h.toRecorded.drop (by simp) (by simp)⟩
  | uncharge p e =>
    rw [exec_uncharge, coe_nil, zero_add]
    exact ⟨htl, h.toRecorded.drop (by simp) (by simp)⟩
  | release f e =>
    simp only [Ledger.exec]
    split
    · rename_i hrl
      rw [coe_nil, zero_add]
      refine ⟨htl, h.toRecorded.drop (fun f' e' heq => ?_) (by simp)⟩
      cases heq
      exact hrl
    · rename_i hfr
      exact ⟨h.toStaged.flip (by simpa using hfr), h.toRecorded.flip⟩
  | forgetIfReleased e =>
    have hmd : e < l.made := h.toStaged.head_lt
    simp only [Ledger.exec]
    split
    · rename_i hall
      rw [all_released_iff] at hall
      refine ⟨?_, h.toRecorded.forgetting hall⟩
      have hps : l.Staged fam (↑([.forget e] : List (LedgerCmd F P)) + M) :=
        htl.push (by simp [LedgerCmd.counts]) (by simpa [LedgerCmd.about] using hmd) (by simp)
      simpa using hps
    · rename_i hsm
      rw [all_released_iff, not_forall] at hsm
      rw [coe_nil, zero_add]
      refine ⟨htl, h.toRecorded.drop (by simp) fun e' heq _ => ?_⟩
      rcases heq with heq | heq <;> cases heq
      exact hsm.imp fun f hf => by simpa using hf
  | forget e =>
    have hfg : (Ledger.exec fam (.forget e) l).1.Recorded M := h.toRecorded.forgotten
    refine ⟨?_, ?_⟩
    · simp only [Ledger.exec, coe_nil, zero_add]
      split <;> exact htl.of_le le_rfl rfl rfl
    · simpa [Ledger.exec] using hfg

theorem Conserved.record [Nonempty F] (h : l.Conserved fam M)
    (hst : ∀ e, l.current key = some e → ∀ p, .charge p e ∉ M) :
    (l.record key payload).Conserved fam (↑(l.afterRecord fam key) + M) := by
  have hold : ∀ c ∈ (l.current key).elim [] fam.releases, ∃ f e, c = .release f e ∧ l.current key = some e := by
    intro c hc
    cases hfn : l.current key with
    | none => simp [hfn] at hc
    | some e =>
      rw [hfn] at hc
      obtain ⟨f, rfl⟩ := mem_releases.1 hc
      exact ⟨f, e, rfl, rfl⟩
  unfold afterRecord
  refine ⟨?_, ?_⟩ <;> rw [← coe_add, add_assoc]
  · refine h.toStaged.record.push (fun c hc => ?_) (fun c hc => ?_) fun p e hc hch => ?_
    · obtain ⟨f, e, rfl, _⟩ := hold c hc
      rfl
    · obtain ⟨f, e, rfl, hfn⟩ := hold c hc
      exact (h.found _ _ hfn).1.trans (Nat.lt_succ_self _)
    obtain ⟨_, _, heq, hfn⟩ := hold _ hc
    cases heq
    obtain hch | hch := mem_add.1 hch
    · obtain ⟨_, heq⟩ := mem_charges hch
      cases heq
      exact absurd (h.found _ _ hfn).1 (lt_irrefl _)
    · exact hst e hfn p hch
  · rw [add_left_comm]
    refine (h.toRecorded.record h.toStaged).push fun e hc => ?_
    obtain ⟨_, heq⟩ := mem_charges hc
    cases heq

section

omit [DecidableEq K]

theorem Conserved.of_unused (hmd : l.made = 0) (hcr : ∀ key, l.current key = none) :
    l.Conserved fam (0 : Multiset (LedgerCmd F P)) := by
  have hnn : ∀ e, ¬ e < l.made := fun e => by omega
  exact ⟨⟨by simp, by simp, by simp, by simp⟩, ⟨by simp [hcr], fun e he => absurd he (hnn e),
    fun e he => absurd he (hnn e), by simp⟩⟩

theorem Conserved.pick (h : l.Conserved fam M) (hmd : e < l.made) (hst : ∀ p, .charge p e ∉ M)
    (hcm : ∀ c ∈ commands, ∃ f, c = .release f e) : l.Conserved fam (↑commands + M) := by
  refine ⟨h.toStaged.push (fun c hc => ?_) (fun c hc => ?_) (fun p e' hc => ?_), h.toRecorded.push fun e' hc => ?_⟩
  · obtain ⟨f, rfl⟩ := hcm c hc
    rfl
  · obtain ⟨f, rfl⟩ := hcm c hc
    exact hmd
  · obtain ⟨_, heq⟩ := hcm _ hc
    cases heq
    exact hst p
  · obtain ⟨_, heq⟩ := hcm _ hc
    cases heq

theorem Conserved.current_iff (h : l.Conserved fam 0) (key : K) (e : Nat) :
    l.current key = some e ↔ e < l.made ∧ (l.charge e).key = key ∧ ∃ f, (l.charge e).released f = false := by
  constructor
  · intro hfn
    obtain ⟨hmd, hkey⟩ := h.found key e hfn
    refine ⟨hmd, hkey, ?_⟩
    by_contra hnn
    rw [not_exists] at hnn
    have := h.inside e hmd (hkey ▸ hfn) fun f => by simpa using hnn f
    simp at this
  · rintro ⟨hmd, rfl, f, hfr⟩
    by_contra hout
    have := h.outside e hmd hout f
    simp [hfr] at this

end

end

/-! ## Totals -/

section
variable {A : Type} [AddCommGroup A]

/-- What a slot's counter shows for the charges that pass a test. -/
noncomputable def total (fam : SlotFamily F P) (l : Ledger K F X) (M : Multiset (LedgerCmd F P)) (p : P)
    (q : X → Prop) (amount : X → A) : A :=
  heldSum l.made (fun e => q (l.charge e).payload ∧ l.Held fam M p e) fun e => amount (l.charge e).payload

variable {q : X → Prop} {amount : X → A}

section

omit [DecidableEq F] [DecidableEq P]

theorem total_congr (hmd : l'.made = l.made) (hpy : ∀ e < l.made, (l'.charge e).payload = (l.charge e).payload)
    (hhl : ∀ e < l.made, l'.Held fam M' p e ↔ l.Held fam M p e) :
    total fam l' M' p q amount = total fam l M p q amount := by
  unfold total
  rw [hmd]
  refine heldSum_congr (fun e he => ?_) fun e he _ => ?_
  · rw [hpy e he, hhl e he]
  · rw [hpy e he]

theorem held_congr (hcn : ∀ c : LedgerCmd F P, c.counts = true → (c ∈ M' ↔ c ∈ M)) :
    l.Held fam M' p e ↔ l.Held fam M p e := by
  simp [Held, hcn (.charge p e) rfl, hcn (.uncharge p e) rfl]

theorem total_push (hcn : ∀ c ∈ commands, c.counts = false) :
    total fam l (↑commands + M) p q amount = total fam l M p q amount := by
  refine total_congr rfl (fun _ _ => rfl) fun e _ => held_congr fun c hc => ?_
  have hnot : c ∉ commands := fun hmem => by simp [hcn c hmem] at hc
  simp [hnot]

theorem total_tail (hc : c.counts = false) : total fam l (c ::ₘ M) p q amount = total fam l M p q amount := by
  refine total_congr rfl (fun _ _ => rfl) fun e _ => held_congr fun c' hc' => ?_
  have hne : c' ≠ c := by
    rintro rfl
    simp [hc] at hc'
  simp [hne]

theorem total_of_unused (hmd : l.made = 0) : total fam l M p q amount = 0 :=
  heldSum_eq_zero fun e he => absurd he (by omega)

theorem total_zero : total fam l 0 p q amount =
    heldSum l.made (fun e => q (l.charge e).payload ∧ (l.charge e).released (fam.flag p) = false)
      fun e => amount (l.charge e).payload :=
  heldSum_congr (fun e _ => by simp [Held]) fun _ _ _ => rfl

variable [LinearOrder A] [IsOrderedAddMonoid A]

theorem total_nonneg (h : ∀ e < l.made, 0 ≤ amount (l.charge e).payload) : 0 ≤ total fam l M p q amount :=
  heldSum_nonneg fun e he _ => h e he

theorem le_total (h : ∀ e < l.made, 0 ≤ amount (l.charge e).payload) (hmd : e < l.made)
    (hhl : l.Held fam M p e) (hq : q (l.charge e).payload) : amount (l.charge e).payload ≤ total fam l M p q amount :=
  le_heldSum (fun e he _ => h e he) hmd ⟨hq, hhl⟩

end

def moved (l : Ledger K F X) (p : P) (q : X → Prop) [DecidablePred q] (amount : X → A) : LedgerCmd F P → A
  | .charge p' e => if p = p' ∧ q (l.charge e).payload then amount (l.charge e).payload else 0
  | .uncharge p' e => if p = p' ∧ q (l.charge e).payload then -amount (l.charge e).payload else 0
  | .release _ _ | .forgetIfReleased _ | .forget _ => 0

variable [DecidablePred q]

theorem total_charge {p' : P} (h : l.Staged fam (.charge p e ::ₘ M)) :
    total fam l M p' q amount = total fam l (.charge p e ::ₘ M) p' q amount + moved l p' q amount (.charge p e) := by
  obtain ⟨hfr, hnot⟩ := h.charge_head
  by_cases hp : p' = p
  · subst hp
    refine heldSum_enter h.head_lt (fun hhl => hhl.2.1 (mem_cons_self _ _)) ?_ fun i _ hi => ?_
    · simp [Held, hfr, hnot]
    · simp [Held, hi]
  · rw [moved, if_neg fun h => hp h.1, add_zero]
    exact total_congr rfl (fun _ _ => rfl) fun i _ => by simp [Held, hp]

theorem total_uncharge {p' : P} (h : l.Staged fam (.uncharge p e ::ₘ M)) :
    total fam l M p' q amount = total fam l (.uncharge p e ::ₘ M) p' q amount + moved l p' q amount (.uncharge p e) := by
  obtain ⟨hrl, hnot⟩ := h.uncharge_head
  have hch := h.tail.charge_not_mem_of_released hrl
  by_cases hp : p' = p
  · subst hp
    refine heldSum_leave h.head_lt ?_ (fun hhl => ?_) fun i _ hi => ?_
    · simp [Held, hch]
    · simp [Held, hrl, hnot] at hhl
    · simp [Held, hi]
  · rw [moved, if_neg fun h => hp h.1, add_zero]
    exact total_congr rfl (fun _ _ => rfl) fun i _ => by simp [Held, hp]

theorem Staged.held_of_uncharge (h : l.Staged fam (.uncharge p e ::ₘ M)) : l.Held fam (.uncharge p e ::ₘ M) p e := by
  have hch := h.tail.charge_not_mem_of_released h.uncharge_head.1
  simp [Held, hch]

omit [DecidablePred q] in
theorem total_flip (h : l.Staged fam (.release f e ::ₘ M)) (hfr : (l.charge e).released f = false) :
    total fam (l.setReleased f e) (↑(fam.afterRelease f e) + M) p q amount =
      total fam l (.release f e ::ₘ M) p q amount := by
  refine total_congr rfl (fun _ _ => setReleased_payload l f e _) fun i _ => ?_
  simp only [Held, setReleased_released]
  by_cases hi : i = e ∧ fam.flag p = f
  · obtain ⟨rfl, rfl⟩ := hi
    simp [hfr]
  have hne : ¬ (fam.flag p = f ∧ i = e) := fun h => hi h.symm
  have hne' : ¬ (∃ p', fam.flag p' = f ∧ p = p' ∧ i = e) := by
    rintro ⟨p', hp', rfl, hie⟩
    exact hne ⟨hp', hie⟩
  simp [hi, hne']

theorem total_exec [DecidableEq K] (h : l.Staged fam (c ::ₘ M)) :
    total fam (exec fam c l).1 (↑(exec fam c l).2 + M) p q amount =
      total fam l (c ::ₘ M) p q amount + moved l p q amount c := by
  cases c with
  | charge p' e =>
    rw [exec_charge, coe_nil, zero_add]
    exact total_charge h
  | uncharge p' e =>
    rw [exec_uncharge, coe_nil, zero_add]
    exact total_uncharge h
  | release f e =>
    rw [moved, add_zero]
    simp only [exec]
    split
    · rw [coe_nil, zero_add]
      exact (total_tail rfl).symm
    · rename_i hfr
      exact total_flip h (by simpa using hfr)
  | forgetIfReleased e =>
    rw [moved, add_zero, total_tail rfl]
    refine total_push fun c hc => ?_
    simp only [exec] at hc
    split at hc
    · rw [List.mem_singleton.1 hc]
      rfl
    · simp at hc
  | forget e =>
    rw [moved, add_zero, total_tail rfl, exec, coe_nil, zero_add]
    split <;> rfl

omit [DecidableEq F] in
omit [DecidableEq P] [DecidablePred q] in
theorem total_record [DecidableEq K] {key : K} {payload : X} :
    total fam (l.record key payload) (↑(l.afterRecord fam key) + M) p q amount = total fam l M p q amount := by
  have hch : ∀ i, LedgerCmd.charge p i ∈ l.afterRecord fam key ↔ i = l.made := by
    unfold afterRecord
    cases l.current key <;> simp [SlotFamily.releases, SlotFamily.charges, SlotFamily.mem_all, eq_comm]
  have hun : ∀ i, LedgerCmd.uncharge p i ∉ l.afterRecord fam key := by
    unfold afterRecord
    cases l.current key <;> simp [SlotFamily.releases, SlotFamily.charges]
  refine heldSum_succ (fun hhl => ?_) (fun i hi => ?_) fun i hi _ => by rw [record_charge_of_lt hi]
  · exact hhl.2.1 (mem_add.2 (.inl ((hch _).2 rfl)))
  · simp [Held, record_charge_of_lt hi, hch, hun, ne_of_lt hi]

def amend (l : Ledger K F X) (e : Nat) (payload : X) : Ledger K F X :=
  { l with charge := update l.charge e { l.charge e with payload } }

section

variable (l : Ledger K F X)

section

omit [DecidableEq F]

@[simp] theorem amend_made (e : Nat) (payload : X) : (l.amend e payload).made = l.made := rfl

@[simp] theorem amend_current (e : Nat) (payload : X) : (l.amend e payload).current = l.current := rfl

@[simp] theorem amend_released (e e' : Nat) (payload : X) :
    ((l.amend e payload).charge e').released = (l.charge e').released := by
  by_cases he : e' = e
  · subst he
    simp [amend]
  · simp [amend, he]

@[simp] theorem amend_key (e e' : Nat) (payload : X) : ((l.amend e payload).charge e').key = (l.charge e').key := by
  by_cases he : e' = e
  · subst he
    simp [amend]
  · simp [amend, he]

theorem amend_payload (e e' : Nat) (payload : X) :
    ((l.amend e payload).charge e').payload = if e' = e then payload else (l.charge e').payload := by
  by_cases he : e' = e
  · subst he
    simp [amend]
  · simp [amend, he]

end

end

theorem Conserved.amend {payload : X} (h : l.Conserved fam M) : (l.amend e payload).Conserved fam M := by
  refine ⟨⟨h.made, fun p e' => ?_, fun p e' => ?_, h.release⟩, ⟨fun key e' hfn => ?_, fun e' he' hout f => ?_,
    fun e' he' hin hall => ?_, fun e' hmem f => ?_⟩⟩
  · simpa using h.charge p e'
  · simpa using h.uncharge p e'
  · simpa using h.found key e' hfn
  · simpa using h.outside e' he' (by simpa using hout) f
  · exact h.inside e' he' (by simpa using hin) (by simpa using hall)
  · simpa using h.forget e' hmem f

omit [DecidableEq F] in
omit [DecidableEq P] in
theorem total_amend {payload : X} (hmd : e < l.made) (hhl : l.Held fam M p e) :
    total fam (l.amend e payload) M p q amount = total fam l M p q amount + ((if q payload then amount payload else 0) -
        (if q (l.charge e).payload then amount (l.charge e).payload else 0)) := by
  have hsm : ∀ i, (l.amend e payload).Held fam M p i ↔ l.Held fam M p i := by
    simp [Held]
  have hsl : ((l.amend e payload).charge e).payload = payload := by simp [amend_payload]
  have hch : total fam (l.amend e payload) M p q amount = total fam l M p q amount +
      ((if q payload then amount ((l.amend e payload).charge e).payload else 0) -
        (if q (l.charge e).payload then amount (l.charge e).payload else 0)) := by
    refine heldSum_change hmd (and_iff_left hhl) ?_ (fun i _ hi => ?_) fun i _ hi _ => ?_
    · rw [hsl, hsm]
      exact and_iff_left hhl
    · rw [hsm, amend_payload, if_neg hi]
    · rw [amend_payload, if_neg hi]
  rw [hch, hsl]

end

end Ledger

end Aibrix.Lib
