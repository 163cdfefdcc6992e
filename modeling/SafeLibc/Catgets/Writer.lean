import SafeLibc.Catgets.Gencat
import SafeLibc.Lib.Planes

/-!
# gencat: the catalog file

`write_catalog` lays the messages of the sets that are not deleted out as a hash table of planes,
whose dimensions `hash_dimensions` searches, and writes the table in both byte orders before the
texts. The table is a flat vector of `u32`: a cell is three words, the set number, the message
number and the offset of the text, and a cell whose set number is 0 is vacant.

For messages the format can hold (`Storable`), the search returns dimensions in which every hash has
room (`hashDimensions_spec`), and the cells of the table are then the planes of `Lib.Planes` after
the messages went in one by one (`storeAll_spec`), so that no probe leaves the table.
-/

namespace SafeLibc.Catgets

open SafeLibc.Lib List

/-! ## The writer -/

def Catalog.stored (cat : Catalog) : List (Nat × Message) :=
  (cat.sets.filter fun set => !set.deleted).flatMap fun set =>
    set.messages.map fun message => (set.number, message)

/-- The loop over the messages in `hash_dimensions`: count the messages of each hash, and stop when
the table would be larger than the best one. The depth so far is returned. -/
def fillDepths (mode : Overflow) (size bestTotal : Nat) :
    List (Nat × Message) → (Nat → Nat) → Nat → Option Nat
  | [], _, depth => some depth
  | (setNumber, message) :: rest, depths, depth =>
    (mode.settle 32 (message.number * setNumber)).bind fun product =>
      let index := product % size
      let depths := Function.update depths index (depths index + 1)
      let depth := max depth (depths index)
      (mode.settle 32 (depth * size)).bind fun total =>
        if bestTotal < total then some depth else fillDepths mode size bestTotal rest depths depth

def searchSizes (mode : Overflow) (messages : List (Nat × Message))
    (size bestTotal bestSize bestDepth : Nat) : Option (Nat × Nat) :=
  if size ≤ bestTotal then
    match fillDepths mode size bestTotal messages (fun _ => 0) 1 with
    | none => none
    | some depth =>
      match mode.settle 32 (depth * size) with
      | none => none
      | some total =>
        if size + 1 < 2 ^ 32 then
          if total ≤ bestTotal then searchSizes mode messages (size + 1) total size depth
          else searchSizes mode messages (size + 1) bestTotal bestSize bestDepth
        -- the increment overflows, or wraps to a division by zero in the next round
        else none
  else some (bestSize, bestDepth)
termination_by 2 ^ 32 - size

def hashDimensions (mode : Overflow) (messages : List (Nat × Message)) : Option (Nat × Nat) :=
  let max := 2 ^ 32 - 1
  if messages.isEmpty then some (1, 1)
  else searchSizes mode messages (1 + messages.length / 5) max max max

/-- The first cell without a set number, from `index` on in steps of a plane. -/
def probe (mode : Overflow) (planeSize : Nat) (table : List Nat) (index : Nat) : Option Nat :=
  match _h : table[index]? with
  | none => none
  | some word =>
    if word = 0 then some index
    else
      match mode.settle 32 (planeSize * 3) with
      | none => none
      -- a step of 0 would never leave the loop
      | some 0 => none
      | some (step + 1) => probe mode planeSize table (index + (step + 1))
termination_by table.length - index
decreasing_by
  have hlt := (List.getElem?_eq_some_iff.mp _h).1
  omega

def storeMessage (mode : Overflow) (planeSize : Nat) (written : List Nat × List UInt8)
    (entry : Nat × Message) : Option (List Nat × List UInt8) :=
  let (table, strings) := written
  let (setNumber, message) := entry
  (mode.settle 32 (setNumber * message.number)).bind fun product =>
    (mode.settle 32 (product % planeSize * 3)).bind fun start =>
      (probe mode planeSize table start).bind fun index =>
        if index + 2 < table.length then
          some (((table.set index setNumber).set (index + 1) message.number).set (index + 2)
            (strings.length % 2 ^ 32), strings ++ (message.text ++ [0]))
        else none

def catgetsMagic : Nat := 0x960408de

def fileBytes (planeSize planeDepth : Nat) (table : List Nat) (strings : List UInt8) :
    List UInt8 :=
  [catgetsMagic, planeSize, planeDepth].flatMap (leBytes 4) ++
    (table.flatMap (leBytes 4) ++ (table.flatMap (fun value => leBytes 4 (swapBytes 4 value)) ++
      strings))

def writeCatalog (mode : Overflow) (cat : Catalog) : Option (List UInt8) :=
  (hashDimensions mode cat.stored).bind fun (planeSize, planeDepth) =>
    (mode.settle 32 (planeSize * planeDepth)).bind fun cells =>
      (mode.settle 32 (cells * 3)).bind fun slots =>
        (cat.stored.foldlM (storeMessage mode planeSize) (List.replicate slots 0, [])).map
          fun (table, strings) => fileBytes planeSize planeDepth table strings

/-! ## Messages the format can hold -/

structure Storable (messages : List (Nat × Message)) : Prop where
  nonempty : messages ≠ []
  length_lt : messages.length < 2 ^ 15
  product_lt : ∀ entry ∈ messages, entry.1 * entry.2.number < 2 ^ 31
  set_lt : ∀ entry ∈ messages, entry.1 < 2 ^ 32
  number_pos : ∀ entry ∈ messages, 0 < entry.2.number
  number_lt : ∀ entry ∈ messages, entry.2.number < 2 ^ 32
  keys_nodup : (messages.map fun entry => (entry.1, entry.2.number)).Nodup

variable {cat : Catalog} {table : List Nat} {i : Nat} {entry : Nat × Message}

theorem Catalog.mem_stored :
    entry ∈ cat.stored ↔ ∃ set ∈ cat.sets, set.deleted = false ∧ set.number = entry.1 ∧
      entry.2 ∈ set.messages := by
  obtain ⟨n, message⟩ := entry
  simp only [Catalog.stored, mem_flatMap, mem_filter, mem_map, Prod.mk.injEq,
    Bool.not_eq_true']
  constructor
  · rintro ⟨set, ⟨hset, hdeleted⟩, message, hmessage, rfl, rfl⟩
    exact ⟨set, hset, hdeleted, rfl, hmessage⟩
  · rintro ⟨set, hset, hdeleted, rfl, hmessage⟩
    exact ⟨set, ⟨hset, hdeleted⟩, message, hmessage, rfl, rfl⟩

theorem Catalog.Valid.keys_nodup (h : cat.Valid) :
    (cat.stored.map fun entry => (entry.1, entry.2.number)).Nodup := by
  have hsets : ∀ sets : List MessageSet, (sets.map MessageSet.number).Nodup →
      (∀ set ∈ sets, set.Valid) →
      (((sets.filter fun set => !set.deleted).flatMap fun set =>
        set.messages.map fun message => (set.number, message)).map
          fun entry => (entry.1, entry.2.number)).Nodup := by
    intro sets hnodup hvalid
    induction sets with
    | nil => simp
    | cons set sets ih =>
      rw [map_cons, nodup_cons] at hnodup
      have hrest := ih hnodup.2 fun s hs => hvalid s (mem_cons_of_mem _ hs)
      cases hdeleted : set.deleted with
      | true => simpa [hdeleted] using hrest
      | false =>
        rw [filter_cons, hdeleted]
        simp only [Bool.not_false, ↓reduceIte, flatMap_cons, map_append, map_map]
        refine nodup_append.mpr ⟨?_, hrest, ?_⟩
        · -- within the set, by the message numbers
          have hnumbers := (hvalid set (mem_cons_self ..)).messages_nodup
          have hpairs := hnumbers.map (f := fun n => (set.number, n))
            fun a b hab => (Prod.mk.inj hab).2
          simpa [Function.comp_def] using hpairs
        · -- against the other sets, by the set number
          rintro key hkey other hother rfl
          obtain ⟨message, -, rfl⟩ := mem_map.mp hkey
          obtain ⟨entry, hentry, heq⟩ := mem_map.mp hother
          obtain ⟨set', hset', hpair⟩ := mem_flatMap.mp hentry
          obtain ⟨message', -, rfl⟩ := mem_map.mp hpair
          refine hnodup.1 (mem_map.mpr ⟨set', mem_of_mem_filter hset', ?_⟩)
          exact (Prod.mk.inj heq).1
  exact hsets cat.sets h.sets_nodup h.sets_valid

theorem Catalog.Valid.storable (h : cat.Valid) (hpos : 0 < cat.stored.length)
    (hlen : cat.stored.length < 2 ^ 15)
    (hprod : ∀ entry ∈ cat.stored, entry.1 * entry.2.number < 2 ^ 31) : Storable cat.stored where
  nonempty := ne_nil_of_length_pos hpos
  length_lt := hlen
  product_lt := hprod
  set_lt entry hentry := by
    obtain ⟨set, hset, -, hnumber, -⟩ := Catalog.mem_stored.mp hentry
    rw [← hnumber]
    exact (h.sets_valid set hset).number_lt
  number_pos entry hentry := by
    obtain ⟨set, hset, -, -, hmessage⟩ := Catalog.mem_stored.mp hentry
    exact ((h.sets_valid set hset).message_number _ (mem_map_of_mem hmessage)).1
  number_lt entry hentry := by
    obtain ⟨set, hset, -, -, hmessage⟩ := Catalog.mem_stored.mp hentry
    exact ((h.sets_valid set hset).message_number _ (mem_map_of_mem hmessage)).2
  keys_nodup := h.keys_nodup

/-! ## The dimensions -/

def slot (size : Nat) (entry : Nat × Message) : Nat := entry.1 * entry.2.number % size

structure Dimensions (messages : List (Nat × Message)) (size depth : Nat) : Prop where
  size_pos : 0 < size
  depth_pos : 0 < depth
  room : ∀ r, messages.countP (fun entry => slot size entry = r) ≤ depth

section Search

variable (mode : Overflow) {messages : List (Nat × Message)}

variable {size bestTotal : Nat}

/-- The count does not overflow where `bound` does not, and is below every good total only when it
has seen all. -/
theorem fillDepths_spec {depth bound : Nat} {depths : Nat → Nat}
    (hprod : ∀ entry ∈ messages, entry.1 * entry.2.number < 2 ^ 32)
    (hdepths : ∀ r, depths r ≤ depth) (hdepth : depth * size ≤ bestTotal) (hbound : depth ≤ bound)
    (hcount : ∀ r, depths r + messages.countP (fun entry => slot size entry = r) ≤ bound)
    (hfits : ∀ d, d ≤ bound → d * size ≤ bestTotal + size → d * size < 2 ^ 32) :
    ∃ d, fillDepths mode size bestTotal messages depths depth = some d ∧ depth ≤ d ∧
      d ≤ bound ∧ d * size < 2 ^ 32 ∧
      (d * size ≤ bestTotal →
        ∀ r, depths r + messages.countP (fun entry => slot size entry = r) ≤ d) := by
  induction messages generalizing depth depths with
  | nil =>
    refine ⟨depth, rfl, Nat.le_refl _, hbound, ?_, fun _ r => by simpa using hdepths r⟩
    exact hfits depth hbound (by omega)
  | cons entry rest ih =>
    obtain ⟨s, message⟩ := entry
    have hproduct : message.number * s < 2 ^ 32 := by
      rw [Nat.mul_comm]
      exact hprod (s, message) (mem_cons_self ..)
    have hslot : message.number * s % size = slot size (s, message) := by
      rw [slot, Nat.mul_comm]
    rw [fillDepths, Overflow.settle_of_lt hproduct, Option.bind_some]
    simp only [hslot, Function.update_self]
    have hhere := hcount (slot size (s, message))
    rw [countP_cons_of_pos (by simp)] at hhere
    generalize hnext : max depth (depths (slot size (s, message)) + 1) = depth'
    have hslot_le := hdepths (slot size (s, message))
    have htotal : depth' * size ≤ bestTotal + size := by
      have hmul := Nat.mul_le_mul_right size (show depth' ≤ depth + 1 by omega)
      rw [Nat.add_mul] at hmul
      omega
    have hsmall : depth' * size < 2 ^ 32 := hfits depth' (by omega) htotal
    rw [Overflow.settle_of_lt hsmall, Option.bind_some]
    by_cases hbreak : bestTotal < depth' * size
    · exact ⟨depth', by rw [if_pos hbreak], by omega, by omega, hsmall, fun hle => by omega⟩
    · rw [if_neg hbreak]
      have hdepths' : ∀ r, Function.update depths (slot size (s, message))
          (depths (slot size (s, message)) + 1) r ≤ depth' := by
        intro r
        have hr := hdepths r
        by_cases hsame : r = slot size (s, message)
        · subst hsame
          rw [Function.update_self]
          omega
        · rw [Function.update_of_ne hsame]
          omega
      -- the message counts with the depths now, and no longer with the messages
      have hmoved : ∀ r, Function.update depths (slot size (s, message))
          (depths (slot size (s, message)) + 1) r +
            rest.countP (fun entry => slot size entry = r) =
          depths r + ((s, message) :: rest).countP (fun entry => slot size entry = r) := by
        intro r
        by_cases hsame : slot size (s, message) = r
        · subst hsame
          rw [Function.update_self, countP_cons_of_pos (by simp)]
          omega
        · rw [Function.update_of_ne (Ne.symm hsame), countP_cons_of_neg (by simpa using hsame)]
      obtain ⟨d, hd, hle, hlen', hlt, hroom⟩ :=
        ih (fun e he => hprod e (mem_cons_of_mem _ he)) hdepths'
          (Nat.le_of_not_lt hbreak) (by omega)
          (fun r => hmoved r ▸ hcount r)
      exact ⟨d, hd, by omega, hlen', hlt, fun hgood r => hmoved r ▸ hroom hgood r⟩

theorem fillDepths_start {bound : Nat} (hsize : 0 < size) (hle : size ≤ bestTotal)
    (hprod : ∀ entry ∈ messages, entry.1 * entry.2.number < 2 ^ 32) (hbound : 0 < bound)
    (hcount : ∀ r, messages.countP (fun entry => slot size entry = r) ≤ bound)
    (hfits : ∀ d, d ≤ bound → d * size ≤ bestTotal + size → d * size < 2 ^ 32) :
    ∃ d, fillDepths mode size bestTotal messages (fun _ => 0) 1 = some d ∧
      d ≤ bound ∧ d * size < 2 ^ 32 ∧
      (d * size ≤ bestTotal → Dimensions messages size d) := by
  obtain ⟨d, hd, hpos, hlen, hsmall, hroom⟩ := fillDepths_spec mode hprod (fun _ => Nat.zero_le 1)
    (by rwa [one_mul]) hbound (fun r => by simpa using hcount r) hfits
  exact ⟨d, hd, hlen, hsmall, fun hgood => ⟨hsize, hpos, fun r => by simpa using hroom hgood r⟩⟩

theorem searchSizes_spec (hprod : ∀ entry ∈ messages, entry.1 * entry.2.number < 2 ^ 32)
    {size bestTotal bestSize bestDepth : Nat} (hsize : 0 < size)
    (hbest : Dimensions messages bestSize bestDepth) (htotal : bestTotal = bestDepth * bestSize)
    (hlt : bestTotal < 2 ^ 31) :
    ∃ planeSize planeDepth, searchSizes mode messages size bestTotal bestSize bestDepth =
        some (planeSize, planeDepth) ∧
      Dimensions messages planeSize planeDepth ∧ planeDepth * planeSize ≤ bestTotal := by
  rw [searchSizes]
  by_cases hloop : size ≤ bestTotal
  · obtain ⟨depth, hdepth, -, hsmall, hroom⟩ := fillDepths_start mode hsize hloop hprod
      (Nat.succ_pos messages.length) (fun _ => Nat.le_succ_of_le countP_le_length) (by omega)
    have hnext : size + 1 < 2 ^ 32 := by omega
    rw [if_pos hloop, hdepth]
    simp only [Overflow.settle_of_lt hsmall, hnext, ↓reduceIte]
    by_cases hgood : depth * size ≤ bestTotal
    · rw [if_pos hgood]
      obtain ⟨planeSize, planeDepth, hfound, hdims, hle⟩ :=
        searchSizes_spec hprod (Nat.succ_pos size) (hroom hgood) rfl (lt_of_le_of_lt hgood hlt)
      exact ⟨planeSize, planeDepth, hfound, hdims, le_trans hle hgood⟩
    · rw [if_neg hgood]
      exact searchSizes_spec hprod (Nat.succ_pos size) hbest htotal hlt
  · rw [if_neg hloop]
    exact ⟨bestSize, bestDepth, rfl, hbest, by omega⟩
termination_by bestTotal + 1 - size

/-- The first table that is tried has `depth` planes at most, and its words can be counted. -/
def FirstFits (messages : List (Nat × Message)) (depth : Nat) : Prop :=
  0 < depth ∧
    (∀ r, messages.countP (fun entry => slot (1 + messages.length / 5) entry = r) ≤ depth) ∧
    depth * (1 + messages.length / 5) * 3 < 2 ^ 32

/-- **The dimensions have room** for every hash, and the table they give is not larger than the
first one. -/
theorem hashDimensions_spec (hne : messages ≠ [])
    (hprod : ∀ entry ∈ messages, entry.1 * entry.2.number < 2 ^ 32) {bound : Nat}
    (hfirst : FirstFits messages bound) :
    ∃ planeSize planeDepth, hashDimensions mode messages = some (planeSize, planeDepth) ∧
      Dimensions messages planeSize planeDepth ∧
      planeSize * planeDepth ≤ bound * (1 + messages.length / 5) := by
  obtain ⟨hbound, hcount, htotal⟩ := hfirst
  have hempty : messages.isEmpty = false := by simpa using hne
  unfold hashDimensions
  have hpos : 0 < 1 + messages.length / 5 := by omega
  rw [hempty, if_neg Bool.false_ne_true]
  generalize 1 + messages.length / 5 = size at hcount htotal hpos
  have hle : ∀ d, d ≤ bound → d * size ≤ bound * size := fun d => Nat.mul_le_mul_right size
  have hone := hle 1 hbound
  rw [one_mul] at hone
  obtain ⟨depth, hdepth, hdepth_le, hsmall, hroom⟩ := fillDepths_start mode hpos
    (show size ≤ 2 ^ 32 - 1 by omega) hprod hbound hcount fun d hd _ => by
      have := hle d hd
      omega
  have hdepth_total := hle depth hdepth_le
  have hgood : depth * size ≤ 2 ^ 32 - 1 := by omega
  obtain ⟨planeSize, planeDepth, hfound, hbest, hplanes⟩ :=
    searchSizes_spec mode hprod (Nat.succ_pos size) (hroom hgood) rfl (by omega)
  refine ⟨planeSize, planeDepth, ?_, hbest, ?_⟩
  · have hnext : size + 1 < 2 ^ 32 := by omega
    rw [searchSizes, if_pos (by omega), hdepth]
    simp only [Overflow.settle_of_lt hsmall, hnext, hgood]
    exact hfound
  · rw [mul_comm planeSize planeDepth]
    omega

theorem Storable.total_le (h : Storable messages) :
    messages.length * (1 + messages.length / 5) ≤ 2 ^ 15 * 6554 := by
  have hlen := h.length_lt
  exact Nat.mul_le_mul (by omega) (by omega)

theorem Storable.firstFits (h : Storable messages) : FirstFits messages messages.length := by
  have htotal := h.total_le
  exact ⟨length_pos_of_ne_nil h.nonempty, fun _ => countP_le_length, by omega⟩

end Search

/-! ## The table -/

def cellAt (words : Nat → Option Nat) (i : Nat) : Option (Nat × Nat × Nat) :=
  (words (3 * i)).bind fun setNumber =>
    (words (3 * i + 1)).bind fun number =>
      (words (3 * i + 2)).map fun offset => (setNumber, number, offset)

def vacant (cell : Nat × Nat × Nat) : Bool := cell.1 = 0

structure Filled (planeSize planeDepth : Nat) (table : List Nat)
    (items : List (Nat × Nat × Nat × Nat)) : Prop where
  length_eq : table.length = 3 * (planeSize * planeDepth)
  word_lt : ∀ word ∈ table, word < 2 ^ 32
  holds : Planes.Holds vacant planeSize planeDepth (0, 0, 0) (cellAt (table[·]?)) items

/-- The cell of each message, the texts being written from `offset` on. -/
def layout : Nat → List (Nat × Message) → List (Nat × Nat × Nat)
  | _, [] => []
  | offset, (setNumber, message) :: rest =>
    (setNumber, message.number, offset % 2 ^ 32) :: layout (offset + (message.text.length + 1)) rest

def hashed (size : Nat) (cell : Nat × Nat × Nat) : Nat × Nat × Nat × Nat :=
  (cell.1 * cell.2.1 % size, cell)

def texts (messages : List (Nat × Message)) : List UInt8 :=
  messages.flatMap fun entry => entry.2.text ++ [0]

theorem cellAt_table (h : 3 * i + 2 < table.length) :
    cellAt (table[·]?) i = some (table[3 * i], table[3 * i + 1], table[3 * i + 2]) := by
  simp [cellAt, getElem?_eq_getElem (show 3 * i < table.length by omega),
    getElem?_eq_getElem (show 3 * i + 1 < table.length by omega)]

theorem cellAt_set (h : 3 * i + 2 < table.length) (a b c : Nat) :
    cellAt ((((table.set (3 * i) a).set (3 * i + 1) b).set (3 * i + 2) c)[·]?) =
      Function.update (cellAt (table[·]?)) i (some (a, b, c)) := by
  funext j
  by_cases hj : j = i
  · subst hj
    have h0 : 3 * j < table.length := by omega
    have h1 : 3 * j + 1 < table.length := by omega
    simp [cellAt, h, h0, h1]
  · rw [Function.update_of_ne hj]
    simp only [cellAt, getElem?_set]
    simp (disch := omega) only [if_neg]

theorem filled_empty (planeSize planeDepth : Nat) :
    Filled planeSize planeDepth (replicate (3 * (planeSize * planeDepth)) 0) [] where
  length_eq := length_replicate
  word_lt word h := by
    rw [eq_of_mem_replicate h]
    exact Nat.two_pow_pos 32
  holds := by
    refine .empty rfl (fun i hi => ?_) fun i c hc => ?_
    · rw [cellAt_table (by rw [length_replicate]; omega)]
      simp
    · simp only [cellAt, Option.bind_eq_some_iff, Option.map_eq_some_iff] at hc
      obtain ⟨a, ha, b, hb, d, hd, rfl⟩ := hc
      rw [eq_of_mem_replicate (mem_of_getElem? ha),
        eq_of_mem_replicate (mem_of_getElem? hb),
        eq_of_mem_replicate (mem_of_getElem? hd)]

/-- A message whose cell has words of 32 bits. -/
def Representable (entry : Nat × Message) : Prop :=
  entry.1 * entry.2.number < 2 ^ 32 ∧ entry.1 < 2 ^ 32 ∧ entry.2.number < 2 ^ 32

section Store

variable (mode : Overflow) {planeSize planeDepth : Nat} {table : List Nat}
  {items : List (Nat × Nat × Nat × Nat)}

variable {r : Nat}

section

variable (h : Filled planeSize planeDepth table items)

include h

theorem Filled.position_lt {k : Nat} (hr : r < planeSize) (hk : k < planeDepth) :
    3 * (r + k * planeSize) + 2 < table.length := by
  have hmul : (k + 1) * planeSize ≤ planeDepth * planeSize := Nat.mul_le_mul_right _ hk
  rw [add_mul] at hmul
  rw [h.length_eq, mul_comm planeSize planeDepth]
  omega

/-- The probe passes the occupied planes of its hash and stops at the next one. -/
theorem Filled.probe_eq (hsmall : planeSize * planeDepth * 3 < 2 ^ 32)
    (hr : r < planeSize) {n : Nat}
    (hn : (Planes.chain vacant r items).length = n) (hroom : n < planeDepth) :
    probe mode planeSize table (3 * r) = some (3 * (r + n * planeSize)) := by
  have hstep : mode.settle 32 (planeSize * 3) = some (planeSize * 3) := by
    apply Overflow.settle_of_lt
    have hle : planeSize * 1 ≤ planeSize * planeDepth := Nat.mul_le_mul_left _ (by omega)
    omega
  -- by induction on the planes that are left before the end of the chain
  have hfrom : ∀ left k, k + left = n →
      probe mode planeSize table (3 * (r + k * planeSize)) = some (3 * (r + n * planeSize)) := by
    intro left
    induction left with
    | zero =>
      intro k hk
      obtain rfl : k = n := hk
      obtain ⟨c, hc, hvacant⟩ := h.holds.vacant_at hr (hn ▸ hroom)
      have hlt := h.position_lt hr hroom
      rw [hn, cellAt_table hlt] at hc
      cases hc
      have hword : table[3 * (r + k * planeSize)]? = some 0 := by
        rw [getElem?_eq_getElem (by omega)]
        exact congrArg some (by simpa [vacant] using hvacant)
      rw [probe]
      split
      · simp_all
      · next word hsome =>
        rw [hword] at hsome
        rw [← Option.some.inj hsome, if_pos rfl]
    | succ left ih =>
      intro k hk
      obtain ⟨c, hc, hvacant⟩ := h.holds.occupied_at hr (k := k) (by omega) (by omega)
      have hlt := h.position_lt hr (k := k) (by omega)
      rw [cellAt_table hlt] at hc
      cases hc
      have hword : table[3 * (r + k * planeSize)] ≠ 0 := by simpa [vacant] using hvacant
      have hnext := ih (k + 1) (by omega)
      obtain ⟨step, rfl⟩ : ∃ step, planeSize = step + 1 := ⟨planeSize - 1, by omega⟩
      have hposition : 3 * (r + k * (step + 1)) + (step + 1) * 3 =
          3 * (r + (k + 1) * (step + 1)) := by
        rw [add_mul k 1]
        omega
      rw [probe]
      split
      · next hnone =>
        rw [getElem?_eq_getElem (by omega)] at hnone
        cases hnone
      · next word hsome =>
        rw [getElem?_eq_getElem (by omega)] at hsome
        rw [← Option.some.inj hsome, if_neg hword, hstep]
        simp only [show (step + 1) * 3 = step * 3 + 2 + 1 by omega]
        rw [← hnext]
        congr 1
        omega
  simpa using hfrom n 0 (Nat.zero_add n)

theorem Filled.writeCell (hr : r < planeSize)
    (hroom : (Planes.chain vacant r items).length < planeDepth) {i : Nat}
    (hi : r + (Planes.chain vacant r items).length * planeSize = i) {a b c : Nat} (ha : a < 2 ^ 32)
    (hb : b < 2 ^ 32) (hc : c < 2 ^ 32) :
    Filled planeSize planeDepth (((table.set (3 * i) a).set (3 * i + 1) b).set (3 * i + 2) c)
      (items ++ [(r, a, b, c)]) where
  length_eq := by simpa using h.length_eq
  word_lt word hword := by
    rcases mem_or_eq_of_mem_set hword with hword | rfl
    · rcases mem_or_eq_of_mem_set hword with hword | rfl
      · rcases mem_or_eq_of_mem_set hword with hword | rfl
        · exact h.word_lt word hword
        · exact ha
      · exact hb
    · exact hc
  holds := by
    rw [cellAt_set (hi ▸ h.position_lt hr hroom), ← hi]
    exact h.holds.insert hr hroom (a, b, c)

theorem Filled.storeMessage (hsmall : planeSize * planeDepth * 3 < 2 ^ 32)
    (hentry : Representable entry) (hsize : 0 < planeSize)
    (hroom : (Planes.chain vacant (slot planeSize entry) items).length < planeDepth)
    (strings : List UInt8) : ∃ table', Catgets.storeMessage mode planeSize (table, strings) entry =
        some (table', strings ++ (entry.2.text ++ [0])) ∧
      Filled planeSize planeDepth table' (items ++
        [hashed planeSize (entry.1, entry.2.number, strings.length % 2 ^ 32)]) := by
  obtain ⟨s, message⟩ := entry
  obtain ⟨hprod, hset, hnumber⟩ := hentry
  have hr : slot planeSize (s, message) < planeSize := Nat.mod_lt _ hsize
  have hle : planeSize * 1 ≤ planeSize * planeDepth := Nat.mul_le_mul_left _ (by omega)
  have hstart : slot planeSize (s, message) * 3 < 2 ^ 32 := by omega
  have hlt := h.position_lt hr hroom
  refine ⟨_, ?_, h.writeCell hr hroom rfl hset hnumber (Nat.mod_lt _ (Nat.two_pow_pos 32))⟩
  rw [Catgets.storeMessage]
  rw [Overflow.settle_of_lt hprod, Option.bind_some,
    show s * message.number % planeSize = slot planeSize (s, message) from rfl,
    Overflow.settle_of_lt hstart, Option.bind_some, mul_comm _ 3,
    h.probe_eq mode hsmall hr rfl hroom, Option.bind_some, if_pos hlt]

/-- **Every message finds its cell**: the loop over the messages never leaves the table, and fills
it with their cells. -/
theorem Filled.storeAll (hsmall : planeSize * planeDepth * 3 < 2 ^ 32) (hsize : 0 < planeSize)
    {messages : List (Nat × Message)} (hmessages : ∀ entry ∈ messages, Representable entry)
    (hroom : ∀ r, (Planes.chain vacant r items).length +
      messages.countP (fun entry => slot planeSize entry = r) ≤ planeDepth) (strings : List UInt8) :
    ∃ table', messages.foldlM (Catgets.storeMessage mode planeSize) (table, strings) =
        some (table', strings ++ texts messages) ∧
      Filled planeSize planeDepth table'
        (items ++ (layout strings.length messages).map (hashed planeSize)) := by
  induction messages generalizing table items strings with
  | nil => exact ⟨table, by simp [texts], by simpa [layout] using h⟩
  | cons entry rest ih =>
    obtain ⟨hentry, hrest⟩ := forall_mem_cons.1 hmessages
    have hcell : (Planes.chain vacant (slot planeSize entry) items).length < planeDepth := by
      have hcount := hroom (slot planeSize entry)
      simp only [countP_cons, decide_true, ↓reduceIte] at hcount
      omega
    obtain ⟨next, hnext, hfilled⟩ := h.storeMessage mode hsmall hentry hsize hcell strings
    have hroom' : ∀ r, (Planes.chain vacant r (items ++ [hashed planeSize
        (entry.1, entry.2.number, strings.length % 2 ^ 32)])).length +
        rest.countP (fun entry => slot planeSize entry = r) ≤ planeDepth := by
      intro r
      have hcount := hroom r
      rw [countP_cons] at hcount
      rw [Planes.chain_concat, length_append]
      by_cases hsame : slot planeSize entry = r
      · simp only [hsame, decide_true, ↓reduceIte] at hcount
        split
        · simp only [length_singleton]
          omega
        · simp only [length_nil]
          omega
      · have hother : ¬((hashed planeSize
            (entry.1, entry.2.number, strings.length % 2 ^ 32)).1 = r ∧ vacant (hashed planeSize
            (entry.1, entry.2.number, strings.length % 2 ^ 32)).2 = false) := fun hand =>
          hsame hand.1
        rw [if_neg hother, length_nil]
        omega
    obtain ⟨table', htable', hall⟩ := ih hfilled hrest hroom' (strings ++ (entry.2.text ++ [0]))
    refine ⟨table', ?_, ?_⟩
    · rw [foldlM_cons, hnext]
      simpa [texts] using htable'
    · simpa [layout] using hall

end

end Store

/-! ## The file -/

/-- A file that `write_catalog` makes of these messages: planes with room for them, and the table
they fill. -/
structure Written (messages : List (Nat × Message)) where
  planeSize : Nat
  planeDepth : Nat
  table : List Nat
  storable : Storable messages
  dimensions : Dimensions messages planeSize planeDepth
  small : planeSize * planeDepth * 3 < 2 ^ 31
  filled : Filled planeSize planeDepth table ((layout 0 messages).map (hashed planeSize))

def Written.file {messages : List (Nat × Message)} (written : Written messages) : List UInt8 :=
  fileBytes written.planeSize written.planeDepth written.table (texts messages)

theorem writeCatalog_of_first (mode : Overflow) (hne : cat.stored ≠ [])
    (hentries : ∀ entry ∈ cat.stored, Representable entry) {depth : Nat}
    (hfirst : FirstFits cat.stored depth) :
    ∃ planeSize planeDepth table, Dimensions cat.stored planeSize planeDepth ∧
      planeSize * planeDepth ≤ depth * (1 + cat.stored.length / 5) ∧
      Filled planeSize planeDepth table ((layout 0 cat.stored).map (hashed planeSize)) ∧
      writeCatalog mode cat = some (fileBytes planeSize planeDepth table (texts cat.stored)) := by
  obtain ⟨planeSize, planeDepth, hdims, hroom, hle⟩ :=
    hashDimensions_spec mode hne (fun entry hentry => (hentries entry hentry).1) hfirst
  have hsmall : planeSize * planeDepth * 3 < 2 ^ 32 :=
    lt_of_le_of_lt (Nat.mul_le_mul_right 3 hle) hfirst.2.2
  have hcells : mode.settle 32 (planeSize * planeDepth) = some (planeSize * planeDepth) :=
    Overflow.settle_of_lt (by omega)
  have hslots : mode.settle 32 (planeSize * planeDepth * 3) =
      some (3 * (planeSize * planeDepth)) := by
    rw [Overflow.settle_of_lt hsmall, mul_comm]
  obtain ⟨table, htable, hfilled⟩ := (filled_empty planeSize planeDepth).storeAll mode hsmall
    hroom.size_pos hentries (fun r => by simpa using hroom.room r) []
  refine ⟨planeSize, planeDepth, table, hroom, hle, by simpa using hfilled, ?_⟩
  simp [writeCatalog, hdims, hcells, hslots, htable]

/-- **What the writer writes**: for messages the format can hold, it does not fail. -/
theorem writeCatalog_spec (mode : Overflow) (h : Storable cat.stored) :
    ∃ written : Written cat.stored, writeCatalog mode cat = some written.file := by
  have hentries : ∀ entry ∈ cat.stored, Representable entry := fun e he =>
    ⟨lt_trans (h.product_lt e he) (by decide), h.set_lt e he, h.number_lt e he⟩
  obtain ⟨planeSize, planeDepth, table, hroom, hle, hfilled, hfile⟩ :=
    writeCatalog_of_first mode h.nonempty hentries h.firstFits
  have htotal := h.total_le
  exact ⟨⟨planeSize, planeDepth, table, h, hroom, by omega, hfilled⟩, hfile⟩

end SafeLibc.Catgets
