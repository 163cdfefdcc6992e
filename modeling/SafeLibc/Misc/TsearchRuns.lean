import Mathlib.Data.Set.Card
import SafeLibc.Lib.Sorting
import SafeLibc.Misc.TsearchDelete

/-!
# Sequences of calls on one tree

What a tree of `tsearch` is for: a set of keys (`held`). `Inv` is kept by every call whose `malloc`
succeeds, as long as `tdelete` is called on fewer than `2 ^ 21 - 1` keys.
-/

namespace SafeLibc.Misc

open SafeLibc.Lib RBTree List

variable {K : Type}

/-- A call; `tsearch` comes with what `malloc` answers if it is called. -/
inductive Op (K : Type)
  | tsearch (key : K) (q : Ptr) (junk : Node K)
  | tfind (key : K)
  | tdelete (key : K)

section Calls

variable (compar : K → K → Int)

def perform (fuel : Nat) (h : Heap K) : Op K → Except Fault (Heap K × Ptr)
  | .tsearch key q junk => tsearch compar fuel key q junk (some .root) h
  | .tfind key => do
    let a ← tfind compar fuel key (some .root) h
    return (h, a)
  | .tdelete key => tdelete compar fuel key (some .root) h

/-- The keys after a call: `tsearch` adds its key unless an equal one is there, `tdelete` removes
the equal one. -/
def Op.update (keys : Set K) : Op K → Set K
  | .tsearch key _ _ => { k | k ∈ keys ∨ k = key ∧ ∀ k' ∈ keys, compar key k' ≠ 0 }
  | .tfind _ => keys
  | .tdelete key => { k | k ∈ keys ∧ compar key k ≠ 0 }

/-- The keys that the calls leave in the tree. -/
def held (ops : List (Op K)) : Set K := ops.foldl (Op.update compar) ∅

/-- `malloc` succeeds: it returns an address where nothing lives. -/
def Op.Allocates (h : Heap K) : Op K → Prop
  | .tsearch _ q _ => q ≠ .NULL ∧ h.mem q = none
  | _ => True

def Op.Shallow (keys : Set K) : Op K → Prop
  | .tdelete _ => keys.ncard + 1 < 2 ^ 21
  | _ => True

inductive Run (allowed : Set K → Heap K → Op K → Prop) (fuel : Nat) : List (Op K) → Heap K → Prop
  | start : Run allowed fuel [] .empty
  | call {ops : List (Op K)} {h h' : Heap K} {op : Op K} {a : Ptr} (before : Run allowed fuel ops h)
      (ok : allowed (held compar ops) h op) (done : perform compar fuel h op = .ok (h', a)) :
      Run allowed fuel (ops ++ [op]) h'

/-- The keys of a tree ascend. -/
def Ordered : Tree K → Prop
  | .nil => True
  | .node _ x l r => (∀ y ∈ l.toList, compar y.2 x.2 < 0) ∧ (∀ y ∈ r.toList, compar x.2 y.2 < 0) ∧
      Ordered l ∧ Ordered r

structure Correct (keys : Set K) (h : Heap K) (t : Tree K) : Prop where
  holds : Holds h t
  ordered : Ordered compar t
  keys_iff : ∀ k, k ∈ t.toList.map Prod.snd ↔ k ∈ keys
  noRedRed : t.NoRedRed
  blackCounts : ∃ n, ∀ b ∈ t.blackCounts, b = n

/-- A node of the tree with an equal key. -/
def IsNodeOf (t : Tree K) (key : K) (a : Ptr) : Prop := ∃ x ∈ t.toList, x.1 = a ∧ compar key x.2 = 0

/-- What the call returns. -/
def Op.Answers (keys : Set K) (t t' : Tree K) (a : Ptr) : Op K → Prop
  | .tsearch key q _ =>
    ((∃ k ∈ keys, compar key k = 0) → IsNodeOf compar t key a ∧ IsNodeOf compar t' key a) ∧
      ((∀ k ∈ keys, compar key k ≠ 0) → a = q ∧ (q, key) ∈ t'.toList)
  | .tfind key =>
    ((∃ k ∈ keys, compar key k = 0) → IsNodeOf compar t key a) ∧
      ((∀ k ∈ keys, compar key k ≠ 0) → a = .NULL)
  | .tdelete _ => True

end Calls

/-! ## The order of the keys -/

section Order

variable {compar : K → K → Int}

def Below (compar : K → K → Int) (x y : Ptr × K) : Prop := compar x.2 y.2 < 0

theorem ordered_of_pairwise {t : Tree K} (h : t.toList.Pairwise (Below compar)) :
    Ordered compar t := by
  induction t with
  | nil => trivial
  | node red x l r ihl ihr =>
    rw [toList, pairwise_append, pairwise_cons] at h
    obtain ⟨hl, ⟨hxr, hr⟩, hcross⟩ := h
    exact ⟨fun y hy => hcross y hy x (by simp), hxr, ihl hl, ihr hr⟩

theorem pairwise_below_iff {xs : List (Ptr × K)} :
    xs.Pairwise (Below compar) ↔ (xs.map Prod.snd).Pairwise fun a b => compar a b < 0 := by
  rw [pairwise_map]
  rfl

variable {key a b : K} {y : Ptr × K}

section

variable (hcompar : TotalPreorder compar) (hab : compar a b < 0)
include hcompar hab

theorem compar_lt_of_lt_of_lt {c : K} (hbc : compar b c < 0) : compar a c < 0 := by
  have hba := (hcompar.lt_iff a b).mp hab
  have hca := hcompar.lt_iff a c
  by_contra hnot
  have := hcompar.trans b c a (by omega) (by omega)
  omega

theorem compar_ne_of_below (hb : compar key b = 0) : compar key a ≠ 0 := by
  intro ha
  have hb' := (hcompar.eq_comm key b).mp hb
  have hba := hcompar.trans b key a (by omega) (by omega)
  have hlt := (hcompar.lt_iff a b).mp hab
  omega

theorem compar_ne_of_above (ha : compar key a = 0) : compar key b ≠ 0 := fun hb =>
  compar_ne_of_below hcompar hab hb ha

end

theorem dirOf_eq_right : dirOf compar key y = some .right ↔ 0 < compar key y.2 := by
  unfold dirOf sideOf
  split
  · simp only [reduceCtorEq, false_iff]
    omega
  · split
    · simp only [Option.some.injEq, reduceCtorEq, false_iff]
      omega
    · simp only [true_iff]
      omega

theorem dirOf_eq_left : dirOf compar key y = some .left ↔ compar key y.2 < 0 := by
  unfold dirOf sideOf
  split
  · simp only [reduceCtorEq, false_iff]
    omega
  · split
    · simp only [true_iff]
      omega
    · simp only [Option.some.injEq, reduceCtorEq, false_iff]
      omega

theorem directs_dirOf (hcompar : TotalPreorder compar) (key : K) :
    Directs (Below compar) (dirOf compar key) where
  right a b hab hb := by
    rw [dirOf_eq_right, ← hcompar.lt_iff] at hb ⊢
    exact compar_lt_of_lt_of_lt hcompar hab hb
  left a b hab ha := by
    rw [dirOf_eq_left] at ha ⊢
    exact compar_lt_of_lt_of_lt hcompar ha hab

end Order

/-! ## One call -/

section Call

variable {compar : K → K → Int} {keys : Set K} {h : Heap K} {t : Tree K} {n : Nat}

structure Inv (compar : K → K → Int) (n : Nat) (keys : Set K) (h : Heap K) (t : Tree K) : Prop where
  holds : Holds h t
  sorted : t.toList.Pairwise (Below compar)
  keys_iff : ∀ k, k ∈ t.toList.map Prod.snd ↔ k ∈ keys
  balanced : ∃ c m, t.Balanced c m
  size_le : t.size ≤ n

theorem inv_empty : Inv compar 0 ∅ Heap.empty .nil where
  holds := holds_empty
  sorted := List.Pairwise.nil
  keys_iff k := by simp [toList]
  balanced := ⟨false, 0, .nil⟩
  size_le := le_refl 0

section

variable (hinv : Inv compar n keys h t)
include hinv

theorem Inv.correct : Correct compar keys h t := by
  obtain ⟨c, m, hbal⟩ := hinv.balanced
  exact {
    holds := hinv.holds
    ordered := ordered_of_pairwise hinv.sorted
    keys_iff := hinv.keys_iff
    noRedRed := hbal.noRedRed
    blackCounts := ⟨m, hbal.blackCounts_eq⟩ }

theorem Inv.equal_iff (key : K) :
    (∃ k ∈ keys, compar key k = 0) ↔ ∃ y ∈ t.toList, dirOf compar key y = none := by
  constructor
  · rintro ⟨k, hk, hequal⟩
    obtain ⟨y, hy, rfl⟩ := mem_map.mp ((hinv.keys_iff k).mpr hk)
    exact ⟨y, hy, dirOf_eq_none.mpr hequal⟩
  · rintro ⟨y, hy, hnone⟩
    exact ⟨y.2, (hinv.keys_iff y.2).mp (mem_map_of_mem hy), dirOf_eq_none.mp hnone⟩

theorem Inv.mem_keys {y : Ptr × K} (hy : y ∈ t.toList) : y.2 ∈ keys :=
  (hinv.keys_iff y.2).mp (mem_map_of_mem hy)

end

theorem Inv.ncard (hcompar : TotalPreorder compar) (hinv : Inv compar n keys h t) :
    keys.ncard = t.size := by
  classical
  have hnodup : (t.toList.map Prod.snd).Nodup := by
    rw [List.Nodup, pairwise_map]
    refine hinv.sorted.imp ?_
    intro a b hab heq
    rw [Below, heq, hcompar.self] at hab
    omega
  have hset : keys = ((t.toList.map Prod.snd).toFinset : Set K) := by
    ext k
    rw [Finset.mem_coe, mem_toFinset]
    exact (hinv.keys_iff k).symm
  rw [hset, Set.ncard_coe_finset, toFinset_card_of_nodup hnodup, length_map, length_toList]

variable {fuel : Nat} {us vs : List (Ptr × K)} {q : Ptr} {key : K} {x : Ptr × K}

section

variable (hcompar : TotalPreorder compar)
include hcompar

/-- The search answers the node of the equal key, if there is one. -/
theorem Inv.tfind (hinv : Inv compar n keys h t) (key : K)
    (hfuel : n < fuel) : ∃ h' a t', perform compar fuel h (.tfind key) = .ok (h', a) ∧
      Inv compar (n + 1) (Op.update compar keys (.tfind key)) h' t' ∧
      Op.Answers compar keys t t' a (.tfind key) := by
  have hsize := hinv.size_le
  have hloop : tfindLoop compar key h fuel .root = .ok (addr (locate (dirOf compar key) [] t).2) :=
    tfindLoop_spec hinv.holds (by omega)
  refine ⟨h, addr (locate (dirOf compar key) [] t).2, t, ?_, ?_, ?_, ?_⟩
  · rw [perform, Misc.tfind]
    simp only [hloop, ok_bind, pure_ok]
  · exact { hinv with size_le := by omega }
  · intro hequal
    obtain ⟨y, hy, hnone⟩ := (hinv.equal_iff key).mp hequal
    cases hloc : (locate (dirOf compar key) [] t).2 with
    | nil =>
      exact absurd hnone ((locate_nil_iff (directs_dirOf hcompar key) hinv.sorted).mp hloc y hy)
    | node red x l r =>
      have hplug := plug_locate (dirOf compar key) [] t
      rw [plug, hloc] at hplug
      refine ⟨x, ?_, rfl, dirOf_eq_none.mp (dir_locate hloc)⟩
      rw [← hplug, toList_plug]
      simp [toList]
  · intro hmissing
    have hnil : (locate (dirOf compar key) [] t).2 = .nil := by
      rw [locate_nil_iff (directs_dirOf hcompar key) hinv.sorted]
      intro y hy hnone
      exact hmissing y.2 (hinv.mem_keys hy) (dirOf_eq_none.mp hnone)
    rw [hnil, addr_nil]

theorem pairwise_insert (hsorted : (us ++ vs).Pairwise (Below compar))
    (hus : ∀ a ∈ us, dirOf compar key a = some .right)
    (hvs : ∀ b ∈ vs, dirOf compar key b = some .left) :
    (us ++ (q, key) :: vs).Pairwise (Below compar) := by
  rw [pairwise_append] at hsorted
  obtain ⟨hleft, hright, hcross⟩ := hsorted
  rw [pairwise_append, pairwise_cons]
  refine ⟨hleft, ⟨fun b hb => dirOf_eq_left.mp (hvs b hb), hright⟩, ?_⟩
  intro a ha b hb
  rcases mem_cons.mp hb with rfl | hb
  · exact (hcompar.lt_iff a.2 key).mpr (dirOf_eq_right.mp (hus a ha))
  · exact hcross a ha b hb

theorem Inv.tsearch (hinv : Inv compar n keys h t) (key : K)
    (junk : Node K) (hnull : q ≠ .NULL) (hnew : h.mem q = none) (hfuel : 2 * n < fuel) :
    ∃ h' a t', perform compar fuel h (.tsearch key q junk) = .ok (h', a) ∧
      Inv compar (n + 1) (Op.update compar keys (.tsearch key q junk)) h' t' ∧
      Op.Answers compar keys t t' a (.tsearch key q junk) := by
  obtain ⟨c, m, hbal⟩ := hinv.balanced
  obtain ⟨N, hblack⟩ := hbal.blacken
  have hsize := hinv.size_le
  have hsorted : t.blacken.toList.Pairwise (Below compar) := by
    rw [toList_blacken]
    exact hinv.sorted
  obtain ⟨h', hrun, hholds⟩ :=
    tsearch_spec hinv.holds hbal hnull hnew (by omega : 2 * t.size < fuel)
  have hbalanced :=
    insertDown_balanced (dirOf compar key) (q, key) [] t.blacken (.nil false N) hblack
    (.inl (fresh_root (isRed_blacken t)))
  refine ⟨h', _, (insertDown (dirOf compar key) (q, key) [] t.blacken).1, hrun, ?_⟩
  cases hfound : (insertDown (dirOf compar key) (q, key) [] t.blacken).2 with
  | some y =>
    obtain ⟨hnone, hmem, hlist⟩ := insertDown_some hfound
    rw [plug, toList_blacken] at hmem hlist
    have hequal : compar key y.2 = 0 := dirOf_eq_none.mp hnone
    refine ⟨?_, ?_, ?_⟩
    · refine ⟨hholds, hlist ▸ hinv.sorted, ?_, hbalanced, ?_⟩
      · intro k
        rw [hlist, hinv.keys_iff]
        refine ⟨.inl, ?_⟩
        rintro (hk | ⟨-, hmissing⟩)
        · exact hk
        · exact absurd hequal (hmissing y.2 (hinv.mem_keys hmem))
      · rw [← length_toList, hlist, length_toList]
        omega
    · exact fun _ => ⟨⟨y, hmem, rfl, hequal⟩, ⟨y, hlist ▸ hmem, rfl, hequal⟩⟩
    · exact fun hmissing => absurd hequal (hmissing y.2 (hinv.mem_keys hmem))
  | none =>
    obtain ⟨us, vs, hold, hlist, hus, hvs⟩ :=
      toList_insertDown (directs_dirOf hcompar key) hfound hsorted
    rw [toList_blacken] at hold
    have hmissing : ∀ k ∈ keys, compar key k ≠ 0 := by
      intro k hk hequal
      obtain ⟨y, hy, hnone⟩ := (hinv.equal_iff key).mp ⟨k, hk, hequal⟩
      rw [hold] at hy
      rcases mem_append.mp hy with hy | hy
      · exact absurd ((hus y hy).symm.trans hnone) (by simp)
      · exact absurd ((hvs y hy).symm.trans hnone) (by simp)
    refine ⟨?_, ?_, ?_⟩
    · refine ⟨hholds, ?_, ?_, hbalanced, ?_⟩
      · rw [hlist]
        exact pairwise_insert hcompar (hold ▸ hinv.sorted) hus hvs
      · intro k
        have hkeys := hinv.keys_iff k
        rw [hold] at hkeys
        simp only [hlist, map_append, map_cons, mem_append, mem_cons,
          Op.update, Set.mem_ofPred_eq, ← hkeys]
        constructor
        · rintro (hk | rfl | hk)
          · exact .inl (.inl hk)
          · exact .inr ⟨rfl, hmissing⟩
          · exact .inl (.inr hk)
        · rintro ((hk | hk) | ⟨rfl, -⟩)
          · exact .inl hk
          · exact .inr (.inr hk)
          · exact .inr (.inl rfl)
      · have hlength := congrArg List.length hlist
        have holdLength := congrArg List.length hold
        rw [length_toList, length_append, length_cons] at hlength
        rw [length_toList, length_append] at holdLength
        omega
    · rintro ⟨k, hk, hequal⟩
      exact absurd hequal (hmissing k hk)
    · refine fun _ => ⟨rfl, ?_⟩
      rw [hlist]
      simp

end

/-! ## Deletion -/

/-- `overwrite` keeps the key of what it moves. -/
theorem keys_remove (gs : List (Frame (Ptr × K))) (red : Bool) (x : Ptr × K) (l r : Tree K) :
    (remove overwrite gs red x l r).toList.map Prod.snd =
      (before gs ++ (l.toList ++ r.toList) ++ after gs).map Prod.snd := by
  rcases toList_remove overwrite gs red x l r with hlist | ⟨u, us, hr, hlist⟩
  · rw [hlist]
  · rw [hlist, hr]
    simp [overwrite]

theorem roomToRemove_of_size {gs : List (Frame (Ptr × K))} {red : Bool} {l r : Tree K} {c : Bool}
    {m : Nat} (hbal : (plug gs (.node red x l r)).Balanced c m)
    (hsize : (plug gs (.node red x l r)).size + 1 < 2 ^ 21) : RoomToRemove gs red x l r := by
  intro hred _
  obtain ⟨y, u, s, hspec⟩ := detach_spec overwrite gs red x l r
  obtain ⟨d, k, hnode, hacc⟩ := balanced_of_plug hbal
  obtain ⟨e, N, hover⟩ := hacc.plug_balanced (hnode.overwrite (y := y))
  have hsame : (plug gs (.node red y l r)).size = (plug gs (.node red x l r)).size := by
    simp only [← length_toList, toList_plug, toList, length_append, length_cons]
  rw [← hsame, hspec, hred] at hsize
  rw [hspec, hred] at hover
  exact roomy_of_size hover hsize

section

variable (hcompar : TotalPreorder compar)
include hcompar

/-- What is left of an ordered list when the equal element is taken out. -/
theorem mem_without {k : K}
    (hsorted : (us ++ x :: vs).Pairwise (Below compar)) (hequal : compar key x.2 = 0) :
    k ∈ (us ++ vs).map Prod.snd ↔ k ∈ (us ++ x :: vs).map Prod.snd ∧ compar key k ≠ 0 := by
  rw [pairwise_append, pairwise_cons] at hsorted
  obtain ⟨-, ⟨hright, -⟩, hcross⟩ := hsorted
  simp only [map_append, map_cons, mem_append, mem_cons]
  constructor
  · rintro (hk | hk)
    · obtain ⟨a, ha, rfl⟩ := mem_map.mp hk
      exact ⟨.inl hk, compar_ne_of_below hcompar (hcross a ha x (by simp)) hequal⟩
    · obtain ⟨b, hb, rfl⟩ := mem_map.mp hk
      exact ⟨.inr (.inr hk), compar_ne_of_above hcompar (hright b hb) hequal⟩
  · rintro ⟨hk | rfl | hk, hne⟩
    · exact .inl hk
    · exact absurd hequal hne
    · exact .inr hk

theorem Inv.tdelete (hinv : Inv compar n keys h t) (key : K)
    (hshallow : keys.ncard + 1 < 2 ^ 21) (hfuel : n + 1 < fuel) :
    ∃ h' a t', perform compar fuel h (.tdelete key) = .ok (h', a) ∧
      Inv compar (n + 1) (Op.update compar keys (.tdelete key)) h' t' ∧
      Op.Answers compar keys t t' a (.tdelete key) := by
  obtain ⟨c, m, hbal⟩ := hinv.balanced
  have hsize := hinv.size_le
  rw [hinv.ncard hcompar] at hshallow
  cases hloc : locate (dirOf compar key) [] t with
  | mk gs found =>
  cases found with
  | nil =>
    have hnil : (locate (dirOf compar key) [] t).2 = .nil := congrArg Prod.snd hloc
    refine ⟨h, .NULL, t, tdelete_missing hinv.holds hnil (by omega), ?_, trivial⟩
    refine ⟨hinv.holds, hinv.sorted, ?_, ⟨c, m, hbal⟩, by omega⟩
    intro k
    rw [hinv.keys_iff]
    refine ⟨fun hk => ⟨hk, fun hequal => ?_⟩, And.left⟩
    obtain ⟨y, hy, hnone⟩ := (hinv.equal_iff key).mp ⟨k, hk, hequal⟩
    exact (locate_nil_iff (directs_dirOf hcompar key) hinv.sorted).mp hnil y hy hnone
  | node red x l r =>
    have hplug : plug gs (.node red x l r) = t := by
      have hplug := plug_locate (dirOf compar key) [] t
      rwa [hloc] at hplug
    have hequal : compar key x.2 = 0 := dirOf_eq_none.mp (dir_locate (congrArg Prod.snd hloc))
    have hlist : t.toList = (before gs ++ l.toList) ++ x :: (r.toList ++ after gs) := by
      rw [← hplug, toList_plug]
      simp [toList]
    have hkeys := keys_remove gs red x l r
    rw [show before gs ++ (l.toList ++ r.toList) ++ after gs =
      (before gs ++ l.toList) ++ (r.toList ++ after gs) by simp] at hkeys
    have hsorted := hinv.sorted
    rw [hlist] at hsorted
    obtain ⟨h', retval, hrun, hholds⟩ := tdelete_spec hinv.holds hbal hloc
      (roomToRemove_of_size (hplug ▸ hbal) (hplug ▸ hshallow)) (by omega : t.size + 1 < fuel)
    refine ⟨h', retval, _, hrun, ⟨hholds, ?_, ?_, remove_balanced overwrite (hplug ▸ hbal), ?_⟩,
      trivial⟩
    · have hleft : ((before gs ++ l.toList) ++ (r.toList ++ after gs)).Pairwise (Below compar) :=
        hsorted.sublist (List.Sublist.append_left (sublist_cons_self _ _) _)
      rw [pairwise_below_iff] at hleft ⊢
      rw [hkeys]
      exact hleft
    · intro k
      rw [hkeys, mem_without hcompar hsorted hequal, ← hlist, hinv.keys_iff]
      rfl
    · have hlength := congrArg List.length hkeys
      have holdLength := congrArg List.length hlist
      simp only [length_map, length_append, length_cons, length_toList]
        at hlength holdLength
      omega

/-- A call keeps the tree, whatever the call. -/
theorem Inv.call (hinv : Inv compar n keys h t) {op : Op K}
    (halloc : op.Allocates h) (hshallow : op.Shallow keys) (hfuel : 2 * n + 1 < fuel) :
    ∃ h' a t', perform compar fuel h op = .ok (h', a) ∧
      Inv compar (n + 1) (Op.update compar keys op) h' t' ∧ Op.Answers compar keys t t' a op := by
  cases op with
  | tsearch key q junk => exact hinv.tsearch hcompar key junk halloc.1 halloc.2 (by omega)
  | tfind key => exact hinv.tfind hcompar key (by omega)
  | tdelete key => exact hinv.tdelete hcompar key hshallow (by omega)

end

end Call

/-! ## Whole runs -/

section Runs

variable {compar : K → K → Int}

theorem held_append (ops : List (Op K)) (op : Op K) :
    held compar (ops ++ [op]) = Op.update compar (held compar ops) op := by
  rw [held, foldl_append]
  rfl

def Op.Allowed (keys : Set K) (h : Heap K) (op : Op K) : Prop := op.Allocates h ∧ op.Shallow keys

theorem Run.inv (hcompar : TotalPreorder compar) {fuel : Nat} {ops : List (Op K)} {h : Heap K}
    (hrun : Run compar Op.Allowed fuel ops h) (hfuel : 2 * ops.length < fuel) :
    ∃ t, Inv compar ops.length (held compar ops) h t := by
  induction hrun with
  | start => exact ⟨.nil, inv_empty⟩
  | @call ops h h' op a _ hallowed hdone ih =>
    rw [length_append, length_singleton] at hfuel ⊢
    obtain ⟨t, hinv⟩ := ih (by omega)
    obtain ⟨h', a, t', hperform, hinv', -⟩ :=
      hinv.call hcompar hallowed.1 hallowed.2 (by omega : 2 * ops.length + 1 < fuel)
    rw [hdone] at hperform
    cases hperform
    rw [held_append]
    exact ⟨t', hinv'⟩

/-- After any calls from the empty tree the heap is an ordered red-black tree of the keys held, and
whatever call comes next succeeds, keeps that and answers for those keys. -/
theorem tsearch_tree_correct (hcompar : TotalPreorder compar) {fuel : Nat} {ops : List (Op K)}
    {h : Heap K} (hrun : Run compar Op.Allowed fuel ops h) (hfuel : 2 * ops.length + 1 < fuel) :
    ∃ t, Correct compar (held compar ops) h t ∧
      ∀ op : Op K, op.Allowed (held compar ops) h →
        ∃ h' a t', perform compar fuel h op = .ok (h', a) ∧
          Correct compar (held compar (ops ++ [op])) h' t' ∧
          Op.Answers compar (held compar ops) t t' a op := by
  obtain ⟨t, hinv⟩ := hrun.inv hcompar (by omega)
  refine ⟨t, hinv.correct, ?_⟩
  intro op hallowed
  obtain ⟨h', a, t', hperform, hinv', hanswers⟩ := hinv.call hcompar hallowed.1 hallowed.2 hfuel
  refine ⟨h', a, t', hperform, ?_, hanswers⟩
  rw [held_append]
  exact hinv'.correct

/-! ### Runs by evaluation -/

instance (h : Heap K) : DecidablePred (Op.Allocates h)
  | .tsearch _ q _ =>
    decidable_of_iff (q ≠ .NULL ∧ (h.mem q).isNone) (by rw [Option.isNone_iff_eq_none]; rfl)
  | .tfind _ => .isTrue trivial
  | .tdelete _ => .isTrue trivial

/-- The calls go through one after the other, each `malloc` answering an address that is free. -/
def evaluates (compar : K → K → Int) (fuel : Nat) : List (Op K) → Heap K → Bool
  | [], _ => true
  | op :: ops, h =>
    decide (op.Allocates h) &&
      match perform compar fuel h op with
      | .ok (h', _) => evaluates compar fuel ops h'
      | .error _ => false

theorem Run.of_evaluates (hcompar : TotalPreorder compar) {fuel : Nat} {past : List (Op K)}
    (ops : List (Op K)) {h : Heap K} (hrun : Run compar Op.Allowed fuel past h)
    (hfuel : 2 * (past ++ ops).length < fuel) (hfew : (past ++ ops).length + 1 < 2 ^ 21)
    (heval : evaluates compar fuel ops h = true) :
    ∃ h', Run compar Op.Allowed fuel (past ++ ops) h' := by
  induction ops generalizing past h with
  | nil => exact ⟨h, by rwa [append_nil]⟩
  | cons op ops ih =>
    simp only [length_append, length_cons] at hfuel hfew
    rw [evaluates, Bool.and_eq_true, decide_eq_true_eq] at heval
    obtain ⟨halloc, heval⟩ := heval
    have hshallow : op.Shallow (held compar past) := by
      obtain ⟨t, hinv⟩ := hrun.inv hcompar (by omega)
      have hcard := hinv.ncard hcompar
      have hsize := hinv.size_le
      cases op with
      | tsearch key q junk => trivial
      | tfind key => trivial
      | tdelete key =>
        change (held compar past).ncard + 1 < 2 ^ 21
        omega
    split at heval
    · next h' a hperform =>
      obtain ⟨last, hlast⟩ := ih (.call hrun ⟨halloc, hshallow⟩ hperform)
        (by simp only [length_append, length_cons, length_nil]; omega)
        (by simp only [length_append, length_cons, length_nil]; omega) heval
      rw [append_assoc, singleton_append] at hlast
      exact ⟨last, hlast⟩
    · cases heval

def difference (a b : Nat) : Int := a - b

theorem totalPreorder_difference : TotalPreorder difference := by
  refine ⟨fun a b => ?_, fun a b c hab hbc => ?_⟩
  · unfold difference
    omega
  · unfold difference at *
    omega

theorem block_aligned (i : Nat) : UInt64.ofNat (32 * i) &&& 1 = 0 := by
  apply UInt64.toNat_inj.mp
  rw [UInt64.toNat_and, UInt64.toNat_ofNat', show (1 : UInt64).toNat = 1 from rfl,
    show (0 : UInt64).toNat = 0 from rfl, Nat.and_one_is_mod]
  omega

/-- The addresses that `malloc` answers: one behind the other. -/
def block (i : Nat) : Ptr := ⟨UInt64.ofNat (32 * i), block_aligned i⟩

/-- Eight keys, of which two are deleted, the root among them; then one of them comes back. -/
def sampleCalls : List (Op Nat) :=
  [.tsearch 5 (block 1) ⟨0, 0, .NULL⟩, .tsearch 3 (block 2) ⟨0, 0, .NULL⟩,
    .tsearch 8 (block 3) ⟨0, 0, .NULL⟩, .tsearch 1 (block 4) ⟨0, 0, .NULL⟩,
    .tsearch 4 (block 5) ⟨0, 0, .NULL⟩, .tsearch 7 (block 6) ⟨0, 0, .NULL⟩,
    .tsearch 9 (block 7) ⟨0, 0, .NULL⟩, .tsearch 2 (block 8) ⟨0, 0, .NULL⟩, .tfind 4, .tdelete 5,
    .tdelete 9, .tsearch 5 (block 9) ⟨0, 0, .NULL⟩]

theorem tsearch_tree_correct_sample :
    ∃ h, Run difference Op.Allowed 30 sampleCalls h ∧
      ∃ t, Correct difference (held difference sampleCalls) h t := by
  obtain ⟨h, hrun⟩ := Run.of_evaluates totalPreorder_difference sampleCalls
    (.start : Run difference Op.Allowed 30 [] .empty) (by decide) (by decide) (by decide +kernel)
  obtain ⟨t, hcorrect, -⟩ := tsearch_tree_correct totalPreorder_difference hrun (by decide)
  exact ⟨h, hrun, t, hcorrect⟩

/-- After any calls no place is deeper than twice the logarithm of the number of keys, plus one. -/
theorem tsearch_tree_depth (hcompar : TotalPreorder compar) {fuel : Nat} {ops : List (Op K)}
    {h : Heap K} (hrun : Run compar Op.Allowed fuel ops h) (hfuel : 2 * ops.length < fuel) :
    ∃ t, Holds h t ∧ ∀ fs sub, plug fs sub = t →
      fs.length ≤ 2 * ((held compar ops).ncard + 1).log2 + 1 := by
  obtain ⟨t, hinv⟩ := hrun.inv hcompar hfuel
  obtain ⟨c, m, hbal⟩ := hinv.balanced
  refine ⟨t, hinv.holds, ?_⟩
  rintro fs sub rfl
  obtain ⟨d, k, hsub, hacc⟩ := balanced_of_plug hbal
  obtain ⟨N, hpow, hlength, -⟩ := hacc.two_pow_le hsub
  have hlog := (Nat.le_log2 (Nat.add_one_ne_zero _)).2 hpow
  rw [hinv.ncard hcompar]
  split at hlength <;> omega

theorem tsearch_tree_depth_sample :
    ∃ h t, Run difference Op.Allowed 30 sampleCalls h ∧ Holds h t ∧ ∀ fs sub, plug fs sub = t →
      fs.length ≤ 2 * ((held difference sampleCalls).ncard + 1).log2 + 1 := by
  obtain ⟨h, hrun⟩ := Run.of_evaluates totalPreorder_difference sampleCalls
    (.start : Run difference Op.Allowed 30 [] .empty) (by decide) (by decide) (by decide +kernel)
  obtain ⟨t, hdepth⟩ := tsearch_tree_depth totalPreorder_difference hrun (by decide)
  exact ⟨h, t, hrun, hdepth⟩

end Runs

end SafeLibc.Misc
