import SafeLibc.Lib.Ascending
import SafeLibc.Misc.TsearchRuns

/-!
# A full stack of ancestors

Where `nodestack` is full, the place that `tdelete` stores at a red brother is past its end
(`tdelete_overrun`). That takes a black leaf with 40 ancestors and a red brother.

Ascending insertions of `3 * 2 ^ 21` keys build a spine with such a place (`Ascended`), and four
deletions at its lower end lead there.
-/

namespace SafeLibc.Misc

open SafeLibc.Lib RBTree List

variable {K : Type} {z : Ptr → Nat}

/-! ## The write past the end -/

variable {key fuel i n : Nat} {red : Bool} {y : Ptr × Nat} {h : Heap K} {x : Ptr × K} {s : Side}
  {l r t : Tree K} {fs : List (Frame (Ptr × K))} {gs : List (Frame (Ptr × Nat))}

/-- The loop stops at a red brother when the array is full. -/
theorem balanceLoop_overrun {y : Ptr × K}
    (hfocus : Focus z h (⟨red, x, s, .node true y l r⟩ :: fs) t) (hred : t.isRed = false)
    {cap : Nat} (hfull : cap ≤ fs.length + 1) (fuel : Nat) :
    balanceLoop (fuel + 1) ⟨cap, slotOf fs :: ancestors fs⟩ (addr t) h = .error .nodestack := by
  obtain ⟨h₁, -, hloop⟩ := balanceLoop_raise hfocus hred cap fuel
  have hstore : (NodeStack.mk cap (slotOf fs :: ancestors fs)).store (.child s y.1) =
      .error .nodestack := by
    have hlength : (slotOf fs :: ancestors fs).length = fs.length + 1 := by
      rw [length_cons, length_ancestors]
    rw [NodeStack.store, if_neg (by rw [hlength]; exact not_lt.mpr hfull)]
    rfl
  rw [hloop, hstore]
  rfl

/-- `tdelete` where there is no room to remove the node. -/
theorem tdelete_overrun {compar : K → K → Int} (hholds : Holds h t) {key : K} {c : Bool}
    (hbal : t.Balanced c n) {x : Ptr × K}
    (hloc : locate (dirOf compar key) [] t = (fs, .node red x l r))
    (hfull : ¬ RoomToRemove fs red x l r) (hfuel : t.size < fuel) :
    tdelete compar fuel key (some .root) h = .error .nodestack := by
  obtain ⟨hplug, hfocus, retval, hrun⟩ := tdelete_eq hholds hloc hfuel
  obtain ⟨s, u, h₁, d, N, -, hlength, hunlinked, hmem, hdelete⟩ :=
    deleteAt_eq hfocus (hplug ▸ hbal) (hplug ▸ hfuel)
  unfold RoomToRemove at hfull
  generalize detach overwrite fs red x l r = hole at *
  obtain ⟨gs, ured, sub⟩ := hole
  push Not at hfull
  obtain ⟨rfl, hsub, hroomy⟩ := hfull
  obtain ⟨fuel, rfl⟩ : ∃ k, fuel = k + 1 := ⟨fuel - 1, by omega⟩
  cases gs with
  | nil => exact absurd trivial hroomy
  | cons f gs =>
    have hle := le_capacity (f :: gs).length
    obtain ⟨hbrother, hnot⟩ : f.sib.isRed = true ∧ ¬ gs.length + 1 < capacity (gs.length + 1) := by
      by_contra hcontra
      exact hroomy ⟨hle, fun hred => not_not.mp fun hlt => hcontra ⟨hred, hlt⟩⟩
    obtain ⟨y, sl, sr, hy⟩ := eq_node_of_isRed hbrother
    rcases f with ⟨fred, fx, fside, sib⟩
    subst hy
    have hloop := balanceLoop_overrun hunlinked hsub (not_lt.mp hnot) fuel
    have hbalance :
        balanceAndFree (fuel + 1) (stackOf (⟨fred, fx, fside, .node true y sl sr⟩ :: gs))
        u.1 (addr sub) h₁ = .error .nodestack := by
      rw [balanceAndFree, node_ok hmem]
      simp only [ok_bind, red_packAt, Bool.false_eq_true]
      rw [stackOf, length_cons, ancestors, hloop]
      rfl
    rw [hrun, hdelete, hbalance]
    rfl

/-! ## The spine -/

def nth (i : Nat) : Ptr × Nat := (block (i + 1), i + 1)

def ascending (n : Nat) : List (Op Nat) :=
  (List.range n).map fun i => .tsearch (nth i).2 (nth i).1 ⟨0, 0, .NULL⟩

theorem ascending_succ (n : Nat) :
    ascending (n + 1) = ascending n ++ [.tsearch (nth n).2 (nth n).1 ⟨0, 0, .NULL⟩] := by
  rw [ascending, range_succ, map_append]
  rfl

theorem block_inj {j : Nat} (hi : i < 2 ^ 59) (hj : j < 2 ^ 59) (h : block i = block j) :
    i = j := by
  have hword := congrArg (fun p => p.word.toNat) h
  simp only [block, UInt64.toNat_ofNat'] at hword
  omega

theorem block_ne_null (hpos : 0 < i) (hi : i < 2 ^ 59) : block i ≠ .NULL := by
  intro heq
  have hzero : block i = block 0 := heq
  have := block_inj hi (by decide) hzero
  omega

def Op.AllocatesOnly (_ : Set K) (h : Heap K) (op : Op K) : Prop := op.Allocates h

structure Reached (fuel : Nat) (ops : List (Op Nat)) (t : Tree Nat) : Prop where
  run : ∃ h, Run difference Op.AllocatesOnly fuel ops h ∧ Holds h t
  balanced : ∃ c m, t.Balanced c m
  size_lt : t.size + 1 < fuel

theorem dirOf_right (h : y.2 < key) : dirOf difference key y = some .right := by
  rw [dirOf_eq_right, difference]
  omega

theorem dirOf_left (h : key < y.2) : dirOf difference key y = some .left := by
  rw [dirOf_eq_left, difference]
  omega

theorem dirOf_none (h : key = y.2) : dirOf difference key y = none := by
  rw [dirOf_eq_none, difference]
  omega

theorem reached_ascending (hn : n < 2 ^ 58) (hfuel : 2 * n + 1 < fuel) :
    ∃ t, Reached fuel (ascending n) t ∧ Ascended n t ∧ t.toList = (List.range n).map nth := by
  induction n with
  | zero =>
    exact ⟨.nil, ⟨⟨.empty, .start, holds_empty⟩, ⟨false, 0, .nil⟩, hfuel⟩, ascended_nil, rfl⟩
  | succ n ih =>
    obtain ⟨t, ⟨⟨h, hrun, hholds⟩, ⟨c, m, hbal⟩, -⟩, hasc, hlist⟩ := ih (by omega) (by omega)
    have hsize : t.size = n := by
      rw [← length_toList, hlist, length_map, length_range]
    have hdir : ∀ y ∈ t.toList, dirOf difference (n + 1) y = some .right := by
      rw [hlist]
      intro y hy
      obtain ⟨i, hi, rfl⟩ := mem_map.mp hy
      exact dirOf_right (Nat.succ_lt_succ (mem_range.mp hi))
    have hnew : h.mem (block (n + 1)) = none := by
      by_contra hlive
      have hpos := hholds.live _ hlive
      rw [occFrames, occ_eq_count, hlist] at hpos
      have hmem := count_pos_iff.mp (by omega)
      rw [map_map] at hmem
      obtain ⟨i, hi, heq⟩ := mem_map.mp hmem
      have hlt := mem_range.mp hi
      have := block_inj (by omega) (by omega) heq
      omega
    have hnull := block_ne_null (Nat.succ_pos n) (by omega : n + 1 < 2 ^ 59)
    obtain ⟨h', hcall, hholds'⟩ :
        ∃ h', perform difference fuel h (.tsearch (nth n).2 (nth n).1 ⟨0, 0, .NULL⟩) = .ok (h', _) ∧
          Holds h' (insertDown (dirOf difference (n + 1)) (nth n) [] t.blacken).1 :=
      tsearch_spec hholds hbal hnull hnew (by omega)
    obtain ⟨N, hblack⟩ := hbal.blacken
    have hnone : (insertDown (dirOf difference (n + 1)) (nth n) [] t.blacken).2 = none := by
      by_contra hsome
      obtain ⟨y, hy⟩ := Option.ne_none_iff_exists'.mp hsome
      obtain ⟨hequal, hmem, -⟩ := insertDown_some hy
      rw [plug, toList_blacken] at hmem
      rw [hdir y hmem] at hequal
      cases hequal
    have hlist' : (insertDown (dirOf difference (n + 1)) (nth n) [] t.blacken).1.toList =
        t.toList ++ [nth n] := by
      have hsorted : t.blacken.toList.Pairwise (Below difference) := by
        rw [toList_blacken, hlist, pairwise_map]
        refine pairwise_lt_range.imp ?_
        intro i j hlt
        simp only [Below, difference, nth]
        omega
      obtain ⟨us, vs, hold, hnew', -, hvs⟩ :=
        toList_insertDown (directs_dirOf totalPreorder_difference (n + 1)) hnone hsorted
      rw [toList_blacken] at hold
      cases vs with
      | nil => rw [hnew', hold, append_nil]
      | cons v vs =>
        have hleft := hvs v (by simp)
        rw [hdir v (by simp [hold])] at hleft
        cases hleft
    refine ⟨_, ⟨⟨h', ?_, hholds'⟩, ?_, ?_⟩, hasc.insert hdir (nth n), ?_⟩
    · rw [ascending_succ]
      exact .call hrun ⟨hnull, hnew⟩ hcall
    · exact insertDown_balanced _ _ [] _ (.nil false N) hblack (.inl (fresh_root (isRed_blacken t)))
    · rw [← length_toList, hlist', length_append, length_toList, length_singleton]
      omega
    · rw [hlist', hlist, range_succ, map_append]
      rfl

theorem Reached.delete {ops : List (Op Nat)} {x : Ptr × Nat} {l r : Tree Nat}
    (h : Reached fuel ops (plug gs (.node red x l r)))
    (hloc : locate (dirOf difference key) [] (plug gs (.node red x l r)) = (gs, .node red x l r))
    (hroom : RoomToRemove gs red x l r) :
    Reached fuel (ops ++ [.tdelete key]) (remove overwrite gs red x l r) := by
  obtain ⟨⟨h, hrun, hholds⟩, ⟨c, m, hbal⟩, hsize⟩ := h
  obtain ⟨h', retval, hcall, hholds'⟩ := tdelete_spec hholds hbal hloc hroom hsize
  refine ⟨⟨h', .call hrun trivial hcall, hholds'⟩, remove_balanced overwrite hbal, ?_⟩
  have hkeys := congrArg List.length (keys_remove gs red x l r)
  simp only [length_map, length_append, length_toList] at hkeys
  rw [← length_toList, toList_plug] at hsize
  simp only [toList, length_append, length_cons, length_toList] at hsize
  omega

theorem locate_end (hfollows : Follows (dirOf difference key) gs) {x : Ptr × Nat} {l r : Tree Nat}
    (hkey : key = x.2) :
    locate (dirOf difference key) [] (plug gs (.node red x l r)) = (gs, .node red x l r) := by
  rw [locate_plug hfollows, append_nil, locate, dirOf_none hkey]

/-- The lower end of the spine after `3 * 2 ^ (m + 2)` insertions. -/
theorem lower_end {m : Nat} {t : Tree Nat} (hn : n + 4 = 3 * 2 ^ (m + 2)) (h : Ascended (n + 4) t)
    (hlist : t.toList = (List.range (n + 4)).map nth) :
    ∃ x y l r fs gs, gs = ⟨false, x, .right, .node true y l r⟩ :: fs ∧
      t = plug (⟨false, nth (n + 2), .right, .nil⟩ ::
        ⟨true, nth (n + 1), .right, .node false (nth n) .nil .nil⟩ :: gs)
        (.node true (nth (n + 3)) .nil .nil) ∧
      fs.length = 2 * m + 1 ∧ ∀ key, n < key → Follows (dirOf difference key) gs := by
  obtain ⟨gs, rfl, habove⟩ := h
  rw [hn] at habove
  obtain ⟨hzero, hone, htwo, htop, hover⟩ := digit_pow m
  have hright := habove.right
  cases habove with
  | nil digit => omega
  | one digit => omega
  | three digit => omega
  | @two _ w v b d gs _ hb hd rest =>
  cases hb
  cases hd
  rw [zero_add] at rest
  cases rest with
  | nil digit => omega
  | one digit => omega
  | two digit => omega
  | @three _ x u y l r e fs _ _ _ he rest =>
  cases e with
  | nil => exact he.elim
  | node ered a el er =>
  obtain ⟨rfl, hel, her⟩ := he
  cases hel
  cases her
  have hright' : ∀ g ∈ ⟨false, x, .right, .node true y l r⟩ :: fs, g.side = .right := by
    intro g hg
    exact hright g (mem_cons_of_mem _ (mem_cons_of_mem _ (mem_cons_of_mem _ hg)))
  have hends : before (⟨false, x, .right, .node true y l r⟩ :: fs) ++ [a, u, w, v] =
      (List.range n).map nth ++ [nth n, nth (n + 1), nth (n + 2), nth (n + 3)] := by
    rw [toList_plug, after_eq_nil hright] at hlist
    simpa [RBTree.before, Frame.before, toList, range_succ] using hlist
  obtain ⟨hbefore, hkeys⟩ := append_inj' hends rfl
  obtain ⟨rfl, rfl, rfl, rfl⟩ := hkeys
  refine ⟨x, y, l, r, fs, _, rfl, rfl, rest.length_eq htwo htop hover, ?_⟩
  intro key hkey
  refine follows_of_right hright' ?_
  rw [hbefore]
  intro y hy
  obtain ⟨i, hi, rfl⟩ := mem_map.mp hy
  have hlt := mem_range.mp hi
  exact dirOf_right (by simp only [nth]; omega)

/-- A tree that is reached, with a key that cannot be deleted. -/
theorem reached_full : ∃ n, n + 4 = 3 * 2 ^ 21 ∧ ∀ fuel, 2 ^ 24 ≤ fuel → ∃ t,
    Reached fuel
      (ascending (n + 4) ++ [.tdelete (n + 4)] ++ [.tdelete (n + 3)] ++ [.tdelete (n + 1)]) t ∧
    ∀ h, Holds h t → tdelete difference fuel (n + 2) (some .root) h = .error .nodestack := by
  obtain ⟨n, hn⟩ : ∃ n, n + 4 = 3 * 2 ^ (19 + 2) := ⟨3 * 2 ^ (19 + 2) - 4, rfl⟩
  refine ⟨n, hn, fun fuel hfuel => ?_⟩
  obtain ⟨t, hreached, hasc, hlist⟩ := reached_ascending (by omega : n + 4 < 2 ^ 58)
    (by omega : 2 * (n + 4) + 1 < fuel)
  obtain ⟨x, y, l, r, fs, gs, hgs, rfl, hlength, hfollows⟩ := lower_end hn hasc hlist
  have hfollows' : ∀ key, n + 2 < key → Follows (dirOf difference key)
      (⟨true, nth (n + 1), .right, .node false (nth n) .nil .nil⟩ :: gs) := fun key hkey =>
    forall_mem_cons.mpr ⟨dirOf_right hkey, hfollows key (by omega)⟩
  -- the red leaf at the end
  have hfirst : Reached fuel _ (plug (⟨true, nth (n + 1), .right, .node false (nth n) .nil .nil⟩ ::
      gs) (.node false (nth (n + 2)) .nil .nil)) :=
    hreached.delete (locate_end (forall_mem_cons.mpr ⟨dirOf_right (Nat.lt_succ_self (n + 3)),
      hfollows' (n + 4) (by omega)⟩) rfl) (fun hred => Bool.noConfusion hred)
  -- a black leaf, whose brother turns red
  subst hgs
  have hsecond : Reached fuel _ (plug (⟨false, nth (n + 1), .left, .nil⟩ ::
      ⟨false, x, .right, .node true y l r⟩ :: fs) (.node true (nth n) .nil .nil)) :=
    hfirst.delete (locate_end (hfollows' (n + 3) (by omega)) rfl) (fun _ => ?_)
  · have hthird : Reached fuel _ (plug (⟨false, x, .right, .node true y l r⟩ :: fs)
        (.node false (nth (n + 1)) .nil .nil)) :=
      hsecond.delete (locate_end (forall_mem_cons.mpr ⟨dirOf_left (Nat.lt_succ_self (n + 1)),
        hfollows (n + 1) (by omega)⟩) rfl) (fun hred => Bool.noConfusion hred)
    refine ⟨_, hthird, fun h hholds => ?_⟩
    obtain ⟨-, ⟨c, m, hbal⟩, hsize⟩ := hthird
    refine tdelete_overrun hholds hbal (locate_end (hfollows (n + 2) (by omega)) rfl) ?_ (by omega)
    intro hroom
    have hlt := (hroom rfl rfl).2 rfl
    simp only [detach, length_cons, hlength] at hlt
    exact absurd hlt (by decide)
  · exact fun _ => ⟨le_capacity _, fun hred => Bool.noConfusion hred⟩

/-- The keys `1` to `3 * 2 ^ 21` are inserted, and four of the last ones deleted. -/
theorem tdelete_nodestack_overrun :
    ∃ n, n + 4 = 3 * 2 ^ 21 ∧ ∀ fuel, 2 ^ 24 ≤ fuel →
      ∃ h, Run difference Op.AllocatesOnly fuel
          (ascending (n + 4) ++ [.tdelete (n + 4)] ++ [.tdelete (n + 3)] ++ [.tdelete (n + 1)]) h ∧
        perform difference fuel h (.tdelete (n + 2)) = .error .nodestack := by
  obtain ⟨n, hn, hfull⟩ := reached_full
  refine ⟨n, hn, fun fuel hfuel => ?_⟩
  obtain ⟨t, ⟨⟨h, hrun, hholds⟩, -, -⟩, hover⟩ := hfull fuel hfuel
  exact ⟨h, hrun, hover h hholds⟩

/-! ## The writes to the stack -/

/-- **Every store is inside `nodestack`** exactly if it is not full where `tdelete` balances beside
a red brother. -/
theorem tdelete_stays_iff {compar : K → K → Int} {key : K} {c : Bool} {m : Nat} (hholds : Holds h t)
    (hbal : t.Balanced c m) (hfuel : t.size + 1 < fuel) :
    (∃ h' retval, tdelete compar fuel key (some .root) h = .ok (h', retval)) ↔
      ∀ gs red x l r, locate (dirOf compar key) [] t = (gs, .node red x l r) →
        RoomToRemove gs red x l r := by
  constructor
  · rintro ⟨h', retval, hrun⟩ gs red x l r hloc
    by_contra hfull
    rw [tdelete_overrun hholds hbal hloc hfull (Nat.lt_of_succ_lt hfuel)] at hrun
    cases hrun
  · intro hroom
    cases hloc : locate (dirOf compar key) [] t with
    | mk gs found =>
    cases found with
    | nil =>
      exact ⟨h, .NULL,
        tdelete_missing hholds (congrArg Prod.snd hloc) (Nat.lt_of_succ_lt hfuel)⟩
    | node red x l r =>
      obtain ⟨h', retval, hrun, -⟩ := tdelete_spec hholds hbal hloc (hroom gs red x l r hloc) hfuel
      exact ⟨h', retval, hrun⟩

/-- The key 5 in a tree of the keys 1 to 8. -/
theorem tdelete_stays_eight :
    ∃ h : Heap Nat, ∃ t, Holds h t ∧ t.toList.map Prod.snd = [1, 2, 3, 4, 5, 6, 7, 8] ∧
      ∃ h' retval, tdelete difference 20 5 (some .root) h = .ok (h', retval) := by
  obtain ⟨t, ⟨⟨h, -, hholds⟩, ⟨c, m, hbal⟩, hsize⟩, -, hlist⟩ :=
    reached_ascending (by decide : 8 < 2 ^ 58) (by decide : 2 * 8 + 1 < 20)
  refine ⟨h, t, hholds, ?_, (tdelete_stays_iff hholds hbal hsize).2 fun gs red x l r hloc => ?_⟩
  · rw [hlist]
    decide
  · have hplug := plug_locate (dirOf difference 5) [] t
    rw [hloc, plug] at hplug
    exact roomToRemove_of_size (hplug ▸ hbal) (by rw [hplug]; omega)

/-- A red-black tree with a key at which the array is full. -/
theorem tdelete_nodestack_full :
    ∃ h : Heap Nat, ∃ t c m fuel key, Holds h t ∧ t.Balanced c m ∧ t.size + 1 < fuel ∧
      tdelete difference fuel key (some .root) h = .error .nodestack := by
  obtain ⟨n, -, hfull⟩ := reached_full
  obtain ⟨t, ⟨⟨h, -, hholds⟩, ⟨c, m, hbal⟩, hsize⟩, hover⟩ := hfull (2 ^ 24) le_rfl
  exact ⟨h, t, c, m, 2 ^ 24, n + 2, hholds, hbal, hsize, hover h hholds⟩

end SafeLibc.Misc
