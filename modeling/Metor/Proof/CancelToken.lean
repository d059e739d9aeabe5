import Metor.Spec.Stellarator

/-!
# Cancellation reaches what is below

A token is cancelled by its own flag, or by that of its parent as long as that
is there (`isCancelled_iff`). What is cancelled stays so where a flag changes
(`Inv.set`) unless a cancelled parent goes, a token that is cancelled has its
children cancelled (`Inv.cancel`), and a new child sees a token's own flag
(`Inv.alloc`). So where nothing is further below, cancellation is hierarchical
and permanent (`cancellation_holds`).
-/

namespace Metor.Proof.CancelToken

open Metor.Lib Metor.Impl.CancelToken Metor.Impl.CancelToken.Tokens

section
variable {s t : Tokens} {i j p : Nat} {inner : Inner}

/-! ## Flags -/

theorem isCancelled_iff (s : Tokens) (i : Nat) : s.isCancelled i ↔
    (s.inners i).cancelled ∨ ∃ p, s.ChildOf p i ∧ 0 < (s.inners p).strong ∧ (s.inners p).cancelled := by
  have hup (p : Nat) : s.upgrade i = some p ↔ s.ChildOf p i ∧ 0 < (s.inners p).strong := by
    rw [upgrade, Option.filter_eq_some_iff, decide_eq_true_eq]
    exact Iff.rfl
  unfold Tokens.isCancelled
  split
  · rename_i p hp
    rw [Bool.or_eq_true]
    refine or_congr_right ⟨fun hc => ⟨p, ((hup p).mp hp).1, ((hup p).mp hp).2, hc⟩, fun ⟨q, hq, hs, hc⟩ => ?_⟩
    rw [(hup q).mpr ⟨hq, hs⟩] at hp
    rw [← Option.some.inj hp]
    exact hc
  · rename_i hnone
    refine ⟨.inl, fun h => h.resolve_right fun ⟨q, hq, hs, _⟩ => ?_⟩
    rw [(hup q).mpr ⟨hq, hs⟩] at hnone
    exact absurd hnone (by simp)

theorem waitReady_eq (s : Tokens) (i : Nat) : s.waitReady i = s.isCancelled i := by
  unfold waitReady Tokens.isCancelled
  split
  · exact Bool.or_comm _ _
  · rfl

theorem inners_set (s : Tokens) (j i : Nat) (inner : Inner) : (s.set j inner).inners i = if i = j then inner else s.inners i :=
  Function.update_apply ..

/-- The parents are those of before. -/
theorem childOf_set (hp : inner.parent = (s.inners j).parent) : (s.set j inner).ChildOf = s.ChildOf := by
  funext p i
  show (((s.set j inner).inners i).parent = some p) = ((s.inners i).parent = some p)
  rw [inners_set]
  by_cases e : i = j
  · rw [if_pos e, hp, e]
  · rw [if_neg e]

/-! ## The invariant -/

structure Inv (s : Tokens) : Prop where
  fresh : ∀ i, s.next ≤ i → s.inners i = ⟨none, false, 0, 0, 0⟩
  parents : ∀ i j, s.ChildOf j i → j < s.next
  flags : ∀ j, 0 < (s.inners j).strong → (s.inners j).cancelled → j ∈ s.cancels
  bounded : ∀ j ∈ s.cancels, j < s.next
  hierarchical : s.Hierarchical

theorem inv_init : Inv init :=
  ⟨fun i _ => rfl, fun i j h => absurd h (by simp [ChildOf, init]), fun j h => absurd h (by simp [init, Inner.strong]),
    fun j h => absurd h List.not_mem_nil, fun i h => absurd h (by simp [Live, init])⟩

theorem Inv.lt_next (h : Inv s) (hi : 0 < (s.inners i).strong) : i < s.next := by
  by_contra hge
  rw [h.fresh i (Nat.not_lt.mp hge)] at hi
  exact absurd hi (by decide)

theorem strong_pos_of_live (h : s.Live i) : 0 < (s.inners i).strong := by
  unfold Live at h
  unfold Inner.strong
  omega

/-- The `Arc`s of a flag change. -/
theorem Inv.set (h : Inv s) (inner : Inner) (hj : 0 < (s.inners j).strong) (hp : inner.parent = (s.inners j).parent)
    (hlive : 0 < inner.tokens → s.Live j) (hmono : (s.inners j).cancelled → inner.cancelled)
    (hflag : 0 < inner.strong → inner.cancelled = (s.inners j).cancelled)
    (hlost : inner.strong = 0 → (s.inners j).cancelled → ∀ i, s.Live i → s.ChildOf j i → (s.inners i).cancelled)
    (waits : List Wait) : Inv { s.set j inner with waits } := by
  have hchild : ({ s.set j inner with waits } : Tokens).ChildOf = s.ChildOf := childOf_set hp
  have hcancelled (i : Nat) (hc : (s.inners i).cancelled) : ((s.set j inner).inners i).cancelled := by
    rw [inners_set]
    split
    · rename_i e
      exact hmono (e ▸ hc)
    · exact hc
  have hlive' {i : Nat} (hi : 0 < ((s.set j inner).inners i).tokens) : s.Live i := by
    rw [inners_set] at hi
    split at hi
    · rename_i e
      rw [e]
      exact hlive hi
    · exact hi
  refine ⟨fun i hi => ?_, fun i k hk => h.parents i k (hchild ▸ hk), fun k hs hc => ?_, h.bounded, fun i hi k hk hd => ?_⟩
  · show (s.set j inner).inners i = _
    rw [inners_set, if_neg (Nat.ne_of_gt (Nat.lt_of_lt_of_le (h.lt_next hj) hi))]
    exact h.fresh i hi
  · replace hs : 0 < ((s.set j inner).inners k).strong := hs
    replace hc : ((s.set j inner).inners k).cancelled := hc
    rw [inners_set] at hs hc
    split at hs
    · rename_i e
      rw [if_pos e, hflag hs] at hc
      rw [e]
      exact h.flags j hj hc
    · rename_i e
      rw [if_neg e] at hc
      exact h.flags k hs hc
  · unfold Descends at hd
    rw [hchild] at hd
    rw [isCancelled_iff, hchild]
    rcases (isCancelled_iff s i).mp (h.hierarchical i (hlive' hi) k hk hd) with hc | ⟨p, hpi, hps, hpc⟩
    · exact .inl (hcancelled i hc)
    · by_cases e : p = j ∧ inner.strong = 0
      · obtain ⟨rfl, hz⟩ := e
        exact .inl (hcancelled i (hlost hz hpc i (hlive' hi) hpi))
      · refine .inr ⟨p, hpi, ?_, hcancelled p hpc⟩
        show 0 < ((s.set j inner).inners p).strong
        rw [inners_set]
        split
        · rename_i e'
          exact Nat.pos_of_ne_zero fun hz => e ⟨e', hz⟩
        · exact hps

/-- A token is cancelled. -/
theorem Inv.cancel (h : Inv s) (hj : 0 < (s.inners j).strong) (hr : s.Reached j) :
    Inv { s.set j (s.inners j).cancel with cancels := s.cancels ++ [j] } := by
  have hchild : ({ s.set j (s.inners j).cancel with cancels := s.cancels ++ [j] } : Tokens).ChildOf = s.ChildOf :=
    childOf_set rfl
  have hstrong (i : Nat) : ((s.set j (s.inners j).cancel).inners i).strong = (s.inners i).strong := by
    rw [inners_set]
    split
    · rename_i e
      rw [e]
      rfl
    · rfl
  have htokens (i : Nat) : ((s.set j (s.inners j).cancel).inners i).tokens = (s.inners i).tokens := by
    rw [inners_set]
    split
    · rename_i e
      rw [e]
      rfl
    · rfl
  have hself : ((s.set j (s.inners j).cancel).inners j).cancelled := by
    rw [inners_set, if_pos rfl]
    rfl
  have hcancelled (i : Nat) (hc : (s.inners i).cancelled) : ((s.set j (s.inners j).cancel).inners i).cancelled := by
    rw [inners_set]
    split
    · rfl
    · exact hc
  have hmono {i : Nat} (hc : s.isCancelled i) :
      ({ s.set j (s.inners j).cancel with cancels := s.cancels ++ [j] } : Tokens).isCancelled i := by
    rw [isCancelled_iff, hchild]
    refine ((isCancelled_iff s i).mp hc).imp (hcancelled i) fun ⟨p, hpi, hps, hpc⟩ => ⟨p, hpi, ?_, hcancelled p hpc⟩
    exact (hstrong p).symm ▸ hps
  refine ⟨fun i hi => ?_, fun i k hk => h.parents i k (hchild ▸ hk), fun k hs hc => ?_, fun k hk => ?_, fun i hi k hk hd => ?_⟩
  · show (s.set j _).inners i = _
    rw [inners_set, if_neg (Nat.ne_of_gt (Nat.lt_of_lt_of_le (h.lt_next hj) hi))]
    exact h.fresh i hi
  · replace hs : 0 < ((s.set j (s.inners j).cancel).inners k).strong := hs
    replace hc : ((s.set j (s.inners j).cancel).inners k).cancelled := hc
    by_cases e : k = j
    · rw [e]
      exact List.mem_append_right _ List.mem_cons_self
    · rw [inners_set, if_neg e] at hs hc
      exact List.mem_append_left _ (h.flags k hs hc)
  · rcases List.mem_append.mp hk with hk | hk
    · exact h.bounded k hk
    · rw [List.mem_singleton.mp hk]
      exact h.lt_next hj
  · replace hi : 0 < ((s.set j (s.inners j).cancel).inners i).tokens := hi
    rw [htokens] at hi
    unfold Descends at hd
    rw [hchild] at hd
    rcases List.mem_append.mp hk with hk | hk
    · exact hmono (h.hierarchical i hi k hk hd)
    · obtain rfl := List.mem_singleton.mp hk
      rw [isCancelled_iff, hchild]
      by_cases hik : i = k
      · exact .inl (hik ▸ hself)
      · by_cases hc : s.ChildOf k i
        · exact .inr ⟨k, hc, (hstrong k).symm ▸ hj, hself⟩
        · have := hmono (hr i hi hd hik hc)
          rwa [isCancelled_iff, hchild] at this

/-- The token that is made has no descendant, and the others the same parents. -/
theorem descends_alloc (h : Inv s) {parent : Option Nat} (hne : i ≠ s.next)
    (hd : (s.alloc parent).Descends j i) : s.Descends j i := by
  have hchild {a b : Nat} (hb : b ≠ s.next) (hab : (s.alloc parent).ChildOf a b) : s.ChildOf a b := by
    replace hab : ((s.set s.next ⟨parent, false, 1, 0, 0⟩).inners b).parent = some a := hab
    rw [inners_set, if_neg hb] at hab
    exact hab
  revert hne
  induction hd with
  | refl => exact fun _ => .refl
  | tail _ hbc ih =>
    intro hc
    have hbc' := hchild hc hbc
    exact (ih (Nat.ne_of_lt (h.parents _ _ hbc'))).tail hbc'

/-- A token is made, whose parent is cancelled itself if it is cancelled. -/
theorem Inv.alloc (h : Inv s) {parent : Option Nat}
    (hp : ∀ j ∈ parent, s.Live j ∧ (s.isCancelled j → (s.inners j).cancelled)) : Inv (s.alloc parent) := by
  have hlt : ∀ j ∈ parent, j < s.next := fun j hj => h.lt_next (strong_pos_of_live (hp j hj).1)
  have hinners {k : Nat} (hk : k ≠ s.next) : (s.alloc parent).inners k = s.inners k := by
    show (s.set s.next ⟨parent, false, 1, 0, 0⟩).inners k = s.inners k
    rw [inners_set, if_neg hk]
  have hnext : (s.alloc parent).inners s.next = ⟨parent, false, 1, 0, 0⟩ := by
    show (s.set s.next ⟨parent, false, 1, 0, 0⟩).inners s.next = _
    rw [inners_set, if_pos rfl]
  refine ⟨fun i hi => ?_, fun i k hk => ?_, fun k hs hc => ?_, fun k hk => Nat.lt_succ_of_lt (h.bounded k hk),
    fun i hi k hk hd => ?_⟩
  · rw [hinners (Nat.ne_of_gt hi)]
    exact h.fresh i (Nat.le_of_succ_le hi)
  · unfold ChildOf at hk
    by_cases e : i = s.next
    · rw [e, hnext] at hk
      exact Nat.lt_succ_of_lt (hlt k hk)
    · rw [hinners e] at hk
      exact Nat.lt_succ_of_lt (h.parents i k hk)
  · by_cases e : k = s.next
    · rw [e, hnext] at hc
      exact absurd hc Bool.false_ne_true
    · rw [hinners e] at hs hc
      exact h.flags k hs hc
  · rw [isCancelled_iff]
    have hklt := h.bounded k hk
    by_cases e : i = s.next
    · -- the parent of the new token sees the cancellation
      rw [e] at hd ⊢
      rcases Relation.ReflTransGen.cases_tail hd with he | ⟨j, hkj, hj⟩
      · exact absurd he.symm (Nat.ne_of_lt hklt)
      · unfold ChildOf at hj
        rw [hnext] at hj
        have hjlt := hlt j hj
        obtain ⟨hlive, hown⟩ := hp j hj
        have hkj' := descends_alloc h (Nat.ne_of_lt hjlt) hkj
        refine .inr ⟨j, ?_, ?_, ?_⟩
        · unfold ChildOf
          rw [hnext]
          exact hj
        · rw [hinners (Nat.ne_of_lt hjlt)]
          exact strong_pos_of_live hlive
        · rw [hinners (Nat.ne_of_lt hjlt)]
          exact hown (h.hierarchical j hlive k hk hkj')
    · unfold Live at hi
      rw [hinners e] at hi ⊢
      refine ((isCancelled_iff s i).mp (h.hierarchical i hi k hk (descends_alloc h e hd))).imp_right ?_
      rintro ⟨p, hpi, hps, hpc⟩
      have hpne := Nat.ne_of_lt (h.parents i p hpi)
      refine ⟨p, ?_, ?_, ?_⟩
      · unfold ChildOf
        rw [hinners e]
        exact hpi
      · rw [hinners hpne]
        exact hps
      · rw [hinners hpne]
        exact hpc

/-! ## Steps -/

theorem release_parent (inner : Inner) : inner.release.parent = inner.parent := by
  unfold Inner.release
  split <;> rfl

theorem release_tokens (inner : Inner) : inner.release.tokens = inner.tokens := by
  unfold Inner.release
  split <;> rfl

theorem release_strong (inner : Inner) : inner.release.strong = inner.strong := by
  unfold Inner.release
  split <;> rfl

theorem release_cancelled (inner : Inner) (h : inner.cancelled) : inner.release.cancelled := by
  unfold Inner.release
  split
  · rfl
  · exact h

theorem release_of_pos (inner : Inner) (h : 0 < inner.strong) : inner.release = inner := if_neg (Nat.ne_of_gt h)

/-- One `Arc` of a flag is dropped. -/
theorem Inv.release (h : Inv s) (inner : Inner) (hj : 0 < (s.inners j).strong) (hp : inner.parent = (s.inners j).parent)
    (hlive : 0 < inner.tokens → s.Live j) (hc : inner.cancelled = (s.inners j).cancelled)
    (hs : inner.strong + 1 = (s.inners j).strong) (hlost : (s.inners j).cancelled → s.Outlived j)
    (waits : List Wait) : Inv { s.set j inner.release with waits } := by
  refine h.set inner.release hj ((release_parent inner).trans hp) (fun ht => hlive (release_tokens inner ▸ ht))
    (fun hcj => release_cancelled inner (hc ▸ hcj)) (fun hpos => ?_) (fun hz hcj => hlost hcj ?_) waits
  · rw [release_strong] at hpos
    rw [release_of_pos inner hpos, hc]
  · rw [release_strong] at hz
    rw [← hs, hz]

/-- A guard cancels its token, and then its `Arc` is dropped. -/
theorem Inv.guardDropped (h : Inv s) (hg : 0 < (s.inners i).guards) (hr : s.Reached i) (ho : s.Outlived i) :
    Inv { s.set i (Inner.release { (s.inners i).cancel with guards := (s.inners i).guards - 1 }) with
      cancels := s.cancels ++ [i] } := by
  have hstrong : (s.inners i).strong = (s.inners i).tokens + (s.inners i).guards + (s.inners i).upgraded := rfl
  have hpos : 0 < (s.inners i).strong := by omega
  obtain ⟨u, hu⟩ : ∃ u, u = { s.set i (s.inners i).cancel with cancels := s.cancels ++ [i] } := ⟨_, rfl⟩
  have hself : u.inners i = (s.inners i).cancel := by
    rw [hu]
    exact (inners_set ..).trans (if_pos rfl)
  have hother {k : Nat} (hk : k ≠ i) : u.inners k = s.inners k := by
    rw [hu]
    exact (inners_set ..).trans (if_neg hk)
  have hc : Inv u := hu ▸ h.cancel hpos hr
  have hchild : u.ChildOf = s.ChildOf := hu ▸ childOf_set rfl
  have hrel := @Inv.release u i hc { (s.inners i).cancel with guards := (s.inners i).guards - 1 } (hself ▸ hpos)
    (by rw [hself]) (fun ht => ?_) (by rw [hself]) ?_ (fun _ hlast k hk hik => ?_) u.waits
  · have hset : ({ u.set i (Inner.release { (s.inners i).cancel with guards := (s.inners i).guards - 1 }) with
        waits := u.waits } : Tokens) = { s.set i (Inner.release { (s.inners i).cancel with guards := (s.inners i).guards - 1 }) with
        cancels := s.cancels ++ [i] } := by
      rw [hu]
      unfold Tokens.set
      simp only [Function.update_idem]
    rwa [hset] at hrel
  · show 0 < (u.inners i).tokens
    rw [hself]
    exact ht
  · rw [hself]
    show (s.inners i).tokens + ((s.inners i).guards - 1) + (s.inners i).upgraded + 1 = (s.inners i).strong
    omega
  · rw [hself] at hlast
    rw [hchild] at hik
    by_cases e : k = i
    · rw [e, hself]
      rfl
    · unfold Live at hk
      rw [hother e] at hk ⊢
      exact ho hlast k hk hik

/-- The upgraded references are those of the calls that are pending. -/
def Counted (s : Tokens) : Prop := ∀ p, (s.inners p).upgraded = s.waits.countP fun w => w.parent = some p

theorem counted_set (h : Counted s) (hu : inner.upgraded = (s.inners j).upgraded) : Counted (s.set j inner) := by
  intro p
  rw [inners_set]
  split
  · rename_i e
    rw [hu, ← e]
    exact h p
  · exact h p

theorem release_upgraded (inner : Inner) : inner.release.upgraded = inner.upgraded := by
  unfold Inner.release
  split <;> rfl

theorem counted_step (h : Counted s) (hi : Inv s) {a : Act} (ht : step s a = some t) : Counted t := by
  have halloc (parent : Option Nat) : Counted (s.alloc parent) := by
    refine counted_set h ?_
    rw [hi.fresh s.next (Nat.le_refl _)]
  match a with
  | .new =>
    obtain rfl := Option.some.inj ht
    exact halloc none
  | .child i =>
    obtain ⟨-, ht⟩ := Option.ite_none_right_eq_some.mp ht
    obtain rfl := Option.some.inj ht
    exact halloc (some i)
  | .clone i =>
    obtain ⟨-, ht⟩ := Option.ite_none_right_eq_some.mp ht
    obtain rfl := Option.some.inj ht
    exact counted_set h rfl
  | .cancel i =>
    obtain ⟨-, ht⟩ := Option.ite_none_right_eq_some.mp ht
    obtain rfl := Option.some.inj ht
    exact counted_set h rfl
  | .drop i =>
    obtain ⟨-, ht⟩ := Option.ite_none_right_eq_some.mp ht
    obtain rfl := Option.some.inj ht
    exact counted_set h (release_upgraded _)
  | .dropGuard i =>
    obtain ⟨-, ht⟩ := Option.ite_none_right_eq_some.mp ht
    obtain rfl := Option.some.inj ht
    exact counted_set h rfl
  | .guardDropped i =>
    obtain ⟨-, ht⟩ := Option.ite_none_right_eq_some.mp ht
    obtain rfl := Option.some.inj ht
    exact counted_set h (release_upgraded _)
  | .startWait i =>
    obtain ⟨-, ht⟩ := Option.ite_none_right_eq_some.mp ht
    have happend (w : Wait) (q : Nat) : (s.waits ++ [w]).countP (fun w => w.parent = some q) =
        (s.inners q).upgraded + if w.parent = some q then 1 else 0 := by
      rw [List.countP_append, h q, List.countP_singleton]
      simp only [decide_eq_true_eq]
    split at ht
    · obtain rfl := Option.some.inj ht
      exact h
    · split at ht
      · rename_i p hp
        obtain rfl := Option.some.inj ht
        intro q
        show ((s.set p _).inners q).upgraded = (s.waits ++ [(⟨i, some p⟩ : Wait)]).countP _
        rw [happend, inners_set]
        by_cases e : q = p
        · rw [if_pos e, if_pos (by rw [e]), e]
        · rw [if_neg e, if_neg fun he => e (Option.some.inj he).symm, Nat.add_zero]
      · obtain rfl := Option.some.inj ht
        intro q
        show (s.inners q).upgraded = (s.waits ++ [(⟨i, none⟩ : Wait)]).countP _
        rw [happend, if_neg (by simp), Nat.add_zero]
  | .endWait w =>
    obtain ⟨hw, ht⟩ := Option.ite_none_right_eq_some.mp ht
    have herase (q : Nat) : (s.inners q).upgraded =
        (s.waits.erase w).countP (fun w => w.parent = some q) + if w.parent = some q then 1 else 0 := by
      rw [h q, (List.perm_cons_erase hw).countP_eq, List.countP_cons]
      simp only [decide_eq_true_eq]
    split at ht
    · rename_i p hp
      obtain rfl := Option.some.inj ht
      intro q
      show ((s.set p _).inners q).upgraded = (s.waits.erase w).countP _
      have hq := herase q
      rw [inners_set]
      by_cases e : q = p
      · rw [if_pos e, release_upgraded, ← e]
        rw [if_pos (by rw [hp, e])] at hq
        show (s.inners q).upgraded - 1 = _
        omega
      · rw [if_neg e, hq, if_neg fun he => e (Option.some.inj (he.symm.trans hp)), Nat.add_zero]
    · rename_i hp
      obtain rfl := Option.some.inj ht
      intro q
      show (s.inners q).upgraded = (s.waits.erase w).countP _
      rw [herase q, if_neg (by rw [hp]; simp), Nat.add_zero]

theorem inv_step (h : Inv s) (hn : Counted s) {a : Act} (hok : Shallow s a) (ht : step s a = some t) : Inv t := by
  match a with
  | .new =>
    obtain rfl := Option.some.inj ht
    exact h.alloc (fun j hj => absurd hj (by simp))
  | .child i =>
    obtain ⟨hi, ht⟩ := Option.ite_none_right_eq_some.mp ht
    obtain rfl := Option.some.inj ht
    refine h.alloc fun j hj => ?_
    obtain rfl := Option.some.inj hj
    exact ⟨hi, hok⟩
  | .clone i =>
    obtain ⟨hi, ht⟩ := Option.ite_none_right_eq_some.mp ht
    obtain rfl := Option.some.inj ht
    refine h.set { s.inners i with tokens := (s.inners i).tokens + 1 } (strong_pos_of_live hi) rfl (fun _ => hi) id
      (fun _ => rfl) (fun hz => ?_) s.waits
    simp only [Inner.strong] at hz
    omega
  | .cancel i =>
    obtain ⟨hi, ht⟩ := Option.ite_none_right_eq_some.mp ht
    obtain rfl := Option.some.inj ht
    exact h.cancel (strong_pos_of_live hi) hok
  | .drop i =>
    obtain ⟨hi, ht⟩ := Option.ite_none_right_eq_some.mp ht
    obtain rfl := Option.some.inj ht
    refine h.release { s.inners i with tokens := (s.inners i).tokens - 1 } (strong_pos_of_live hi.1) rfl (fun _ => hi.1)
      rfl ?_ hok s.waits
    have := hi.1
    simp only [Inner.strong]
    omega
  | .dropGuard i =>
    obtain ⟨hi, ht⟩ := Option.ite_none_right_eq_some.mp ht
    obtain rfl := Option.some.inj ht
    refine h.set { s.inners i with tokens := (s.inners i).tokens - 1, guards := (s.inners i).guards + 1 }
      (strong_pos_of_live hi.1) rfl (fun _ => hi.1) id (fun _ => rfl) (fun hz => ?_) s.waits
    simp only [Inner.strong] at hz
    omega
  | .guardDropped i =>
    obtain ⟨hi, ht⟩ := Option.ite_none_right_eq_some.mp ht
    obtain rfl := Option.some.inj ht
    exact h.guardDropped hi hok.1 hok.2
  | .startWait i =>
    obtain ⟨hi, ht⟩ := Option.ite_none_right_eq_some.mp ht
    split at ht
    · obtain rfl := Option.some.inj ht
      exact h
    · split at ht
      · rename_i p hp
        obtain rfl := Option.some.inj ht
        obtain ⟨-, hpos⟩ := Option.filter_eq_some_iff.mp hp
        refine h.set { s.inners p with upgraded := (s.inners p).upgraded + 1 } (of_decide_eq_true hpos) rfl id id
          (fun _ => rfl) (fun hz => ?_) _
        simp only [Inner.strong] at hz
        omega
      · obtain rfl := Option.some.inj ht
        exact ⟨h.fresh, h.parents, h.flags, h.bounded, h.hierarchical⟩
  | .endWait w =>
    obtain ⟨hw, ht⟩ := Option.ite_none_right_eq_some.mp ht
    split at ht
    · rename_i p hp
      obtain rfl := Option.some.inj ht
      have hup : 0 < (s.inners p).upgraded := by
        rw [hn p]
        exact List.countP_pos_iff.mpr ⟨w, hw, decide_eq_true hp⟩
      have hstrong : (s.inners p).strong = (s.inners p).tokens + (s.inners p).guards + (s.inners p).upgraded := rfl
      refine h.release { s.inners p with upgraded := (s.inners p).upgraded - 1 } (by omega) rfl id rfl ?_ (hok p hp) _
      rw [hstrong]
      simp only [Inner.strong]
      omega
    · obtain rfl := Option.some.inj ht
      exact ⟨h.fresh, h.parents, h.flags, h.bounded, h.hierarchical⟩

/-! ## Runs -/

/-- A step keeps parents and what was cancelled. -/
theorem extends_step (h : Inv s) {a : Act} (ht : step s a = some t) :
    s.cancels ⊆ t.cancels ∧ ∀ i p, s.ChildOf p i → t.ChildOf p i := by
  have halloc (parent : Option Nat) : ∀ i p, s.ChildOf p i → (s.alloc parent).ChildOf p i := by
    intro i p hip
    have hne : i ≠ s.next := by
      intro e
      unfold ChildOf at hip
      rw [e, h.fresh s.next (Nat.le_refl _)] at hip
      exact absurd hip (by simp)
    show ((s.set s.next _).inners i).parent = some p
    rw [inners_set, if_neg hne]
    exact hip
  have hset {i : Nat} {inner : Inner} (hp : inner.parent = (s.inners i).parent) :
      ∀ k p, s.ChildOf p k → (s.set i inner).ChildOf p k := by
    rw [childOf_set hp]
    exact fun _ _ hk => hk
  match a with
  | .new =>
    obtain rfl := Option.some.inj ht
    exact ⟨List.Subset.refl _, halloc none⟩
  | .child i =>
    obtain ⟨-, ht⟩ := Option.ite_none_right_eq_some.mp ht
    obtain rfl := Option.some.inj ht
    exact ⟨List.Subset.refl _, halloc (some i)⟩
  | .clone i =>
    obtain ⟨-, ht⟩ := Option.ite_none_right_eq_some.mp ht
    obtain rfl := Option.some.inj ht
    exact ⟨List.Subset.refl _, hset rfl⟩
  | .cancel i =>
    obtain ⟨-, ht⟩ := Option.ite_none_right_eq_some.mp ht
    obtain rfl := Option.some.inj ht
    exact ⟨List.subset_append_left _ _, hset rfl⟩
  | .drop i =>
    obtain ⟨-, ht⟩ := Option.ite_none_right_eq_some.mp ht
    obtain rfl := Option.some.inj ht
    exact ⟨List.Subset.refl _, hset (release_parent _)⟩
  | .dropGuard i =>
    obtain ⟨-, ht⟩ := Option.ite_none_right_eq_some.mp ht
    obtain rfl := Option.some.inj ht
    exact ⟨List.Subset.refl _, hset rfl⟩
  | .guardDropped i =>
    obtain ⟨-, ht⟩ := Option.ite_none_right_eq_some.mp ht
    obtain rfl := Option.some.inj ht
    exact ⟨List.subset_append_left _ _, hset (release_parent _)⟩
  | .startWait i =>
    obtain ⟨-, ht⟩ := Option.ite_none_right_eq_some.mp ht
    split at ht
    · obtain rfl := Option.some.inj ht
      exact ⟨List.Subset.refl _, fun _ _ hk => hk⟩
    · split at ht
      · obtain rfl := Option.some.inj ht
        exact ⟨List.Subset.refl _, hset rfl⟩
      · obtain rfl := Option.some.inj ht
        exact ⟨List.Subset.refl _, fun _ _ hk => hk⟩
  | .endWait w =>
    obtain ⟨-, ht⟩ := Option.ite_none_right_eq_some.mp ht
    split at ht
    · obtain rfl := Option.some.inj ht
      exact ⟨List.Subset.refl _, hset (release_parent _)⟩
    · obtain rfl := Option.some.inj ht
      exact ⟨List.Subset.refl _, fun _ _ hk => hk⟩

theorem run_inv (h : Run step Shallow s t) (hi : Inv s ∧ Counted s) : Inv t ∧ Counted t :=
  @Run.invariant _ _ _ _ _ _ (fun s => Inv s ∧ Counted s)
    (fun hi hok ht => ⟨inv_step hi.1 hi.2 hok ht, counted_step hi.2 hi.1 ht⟩) h hi

theorem run_extends (h : Run step Shallow s t) (hi : Inv s ∧ Counted s) :
    s.cancels ⊆ t.cancels ∧ ∀ i p, s.ChildOf p i → t.ChildOf p i := by
  induction h with
  | refl => exact ⟨List.Subset.refl _, fun _ _ hk => hk⟩
  | snoc hrun _ ht ih =>
    obtain ⟨hc, hp⟩ := extends_step (run_inv hrun hi).1 ht
    exact ⟨List.Subset.trans ih.1 hc, fun i p hk => hp i p (ih.2 i p hk)⟩

theorem permanent_of_inv (hi : Inv s ∧ Counted s) : Permanent Shallow s := by
  intro t hrun i hs ht hc
  obtain ⟨hcancels, hparents⟩ := run_extends hrun hi
  have hier := (run_inv hrun hi).1.hierarchical
  rcases (isCancelled_iff s i).mp hc with hown | ⟨p, hpi, hps, hpc⟩
  · exact hier i ht i (hcancels (hi.1.flags i (strong_pos_of_live hs) hown)) .refl
  · exact hier i ht p (hcancels (hi.1.flags p hps hpc)) (.single (hparents i p hpi))

theorem isolated (s : Tokens) : Isolated s := by
  intro j t ht i hd
  obtain ⟨-, ht⟩ := Option.ite_none_right_eq_some.mp ht
  obtain rfl := Option.some.inj ht
  have hne : i ≠ j := by
    intro e
    rw [e] at hd
    exact hd .refl
  have hinners {k : Nat} (hk : k ≠ j) : (s.set j (s.inners j).cancel).inners k = s.inners k :=
    (inners_set ..).trans (if_neg hk)
  rw [Bool.eq_iff_iff, isCancelled_iff, isCancelled_iff]
  show ((s.set j (s.inners j).cancel).inners i).cancelled ∨ _ ↔ _
  rw [hinners hne]
  refine or_congr_right (exists_congr fun p => ?_)
  show (s.set j (s.inners j).cancel).ChildOf p i ∧ 0 < ((s.set j (s.inners j).cancel).inners p).strong ∧
    ((s.set j (s.inners j).cancel).inners p).cancelled ↔ _
  rw [show (s.set j (s.inners j).cancel).ChildOf = s.ChildOf from childOf_set rfl]
  refine and_congr_right fun hpi => ?_
  have hp : p ≠ j := by
    intro e
    rw [e] at hpi
    exact hd (.single hpi)
  rw [hinners hp]

theorem waitsReturn (s : Tokens) : WaitsReturn s := by
  intro i hi hc
  show (if 0 < (s.inners i).tokens then _ else _) = _
  rw [if_pos (show 0 < (s.inners i).tokens from hi), if_pos (by rw [waitReady_eq, hc])]

/-- Where no descendant of what is cancelled is further below than a child, and no child outlives a cancelled parent,
cancellation is hierarchical and permanent. -/
theorem cancellation_holds (h : Run step Shallow init s) :
    s.Hierarchical ∧ Permanent Shallow s ∧ WaitsReturn s ∧ Isolated s := by
  have hcounted : Counted init := fun _ => rfl
  have hi := run_inv h ⟨inv_init, hcounted⟩
  exact ⟨hi.1.hierarchical, permanent_of_inv hi, waitsReturn s, isolated s⟩

end

/-- A token with a child and a clone of it; the token is cancelled and outlives the child. -/
theorem cancellation_holds_child : ∃ s, Run step Shallow init s ∧ s.isCancelled 1 ∧
    s.Hierarchical ∧ Permanent Shallow s ∧ WaitsReturn s ∧ Isolated s := by
  let t := (exec step (fun _ _ => True) init [.new, .child 0, .clone 1]).getD init
  have ht : Run step Shallow init t :=
    ((Run.refl.snoc (a := .new) trivial rfl).snoc (a := .child 0) (fun h => absurd h (by decide)) rfl).snoc (a := .clone 1)
      trivial rfl
  have hlive {i : Nat} (hi : t.Live i) : i = 0 ∨ i = 1 := by
    by_contra hne
    rw [not_or] at hne
    have hinner : t.inners i = ⟨none, false, 0, 0, 0⟩ := by
      show Function.update (Function.update (Function.update init.inners 0 _) 1 _) 1 _ i = _
      rw [Function.update_of_ne hne.2, Function.update_of_ne hne.2, Function.update_of_ne hne.1]
      rfl
    unfold Live at hi
    rw [hinner] at hi
    exact absurd hi (by decide)
  have hreached : t.Reached 0 := by
    intro i hi _ hne hchild
    rcases hlive hi with rfl | rfl
    · exact absurd rfl hne
    · exact absurd rfl hchild
  let s := (step t (.cancel 0)).getD t
  have hs : Run step Shallow init s := ht.snoc (show Shallow t (.cancel 0) from hreached) rfl
  exact ⟨s, hs, by decide, cancellation_holds hs⟩

/-- A token is cancelled, and its grandchild is not; a token is cancelled and dropped, and its child is no longer. -/
theorem cancellation_not_hierarchical :
    (¬ ∀ s, Run step (fun _ _ => True) init s → s.Hierarchical) ∧
    ¬ ∀ s, Run step (fun _ _ => True) init s → Permanent (fun _ _ => True) s := by
  constructor
  · intro hall
    let as : List Act := [.new, .child 0, .child 1, .cancel 0]
    let s := (exec step (fun _ _ => True) init as).getD init
    have hs : exec step (fun _ _ => True) init as = some s := rfl
    have hdesc : s.Descends 0 2 := .tail (.single (show s.ChildOf 0 1 from rfl)) (show s.ChildOf 1 2 from rfl)
    exact absurd (hall s (Run.of_exec _ .refl hs) 2 (by decide) 0 List.mem_cons_self hdesc) (by decide)
  · intro hall
    let as : List Act := [.new, .child 0, .cancel 0]
    let s := (exec step (fun _ _ => True) init as).getD init
    let t := (step s (.drop 0)).getD s
    have hs : exec step (fun _ _ => True) init as = some s := rfl
    have ht : step s (.drop 0) = some t := rfl
    exact absurd (hall s (Run.of_exec _ .refl hs) t (Run.refl.snoc trivial ht) 1 (by decide) (by decide) (by decide)) (by decide)

end Metor.Proof.CancelToken
