import SafeLibc.Catgets.Writer
import SafeLibc.Catgets.Reader

/-!
# What gencat writes, catgets reads

`Catalog.lookup` says what a catalog is for: the text of a message of a set. The C library reads a
file that gencat wrote by its own loops over its own table, on machines of either byte order, and
returns that text (`roundTrips`), as long as the texts before the last one take less than `2 ^ 32`
bytes: gencat keeps an offset in 32 bits and drops the rest, and a later message is then read from
another one's text (`roundTrips_offset_wraps`).

The proof has three parts. The reader's table is the writer's table (`name_eq`), so that the search
of `catgets` is the search of `Lib.Planes` and finds the cell of the pair it is asked for
(`searchNames_eq`). A cell's offset leads to its text (`find?_layout`). And the messages that were
written are those of the catalog (`find?_stored`).
-/

namespace SafeLibc.Catgets

open SafeLibc.Lib List

/-! ## The meaning of a catalog -/

/-- The text of message `number` in the set that the source file calls `set`. -/
def Catalog.lookup (cat : Catalog) (set number : Nat) : Option (List UInt8) :=
  (cat.sets.find? fun s => s.number = set + 1 && !s.deleted).bind fun s =>
    (s.messages.find? fun message => message.number = number).map Message.text

def isKey (set number : Nat) (entry : Nat × Message) : Bool :=
  entry.1 = set && entry.2.number = number

theorem Catalog.Valid.find?_stored {cat : Catalog} (h : cat.Valid) (set number : Nat) :
    (cat.stored.find? (isKey (set + 1) number)).map (fun entry => entry.2.text) =
      cat.lookup set number := by
  have hsets : ∀ sets : List MessageSet, (sets.map MessageSet.number).Nodup →
      (((sets.filter fun s => !s.deleted).flatMap fun s =>
          s.messages.map fun message => (s.number, message)).find?
            (isKey (set + 1) number)).map (fun entry => entry.2.text) =
        (sets.find? fun s => s.number = set + 1 && !s.deleted).bind fun s =>
          (s.messages.find? fun message => message.number = number).map Message.text := by
    intro sets hnodup
    induction sets with
    | nil => rfl
    | cons s sets ih =>
      rw [map_cons, nodup_cons] at hnodup
      cases hdeleted : s.deleted with
      | true => simpa [hdeleted] using ih hnodup.2
      | false =>
        rw [filter_cons]
        simp only [Bool.not_false, ↓reduceIte, flatMap_cons, find?_append,
          find?_cons, hdeleted]
        by_cases hnumber : s.number = set + 1
        · -- no later set has this number
          have hlater : ((sets.filter fun s => !s.deleted).flatMap fun s =>
              s.messages.map fun message => (s.number, message)).find?
                (isKey (set + 1) number) = none := by
            rw [find?_eq_none]
            intro entry hentry hkey
            obtain ⟨s', hs', hentry⟩ := mem_flatMap.mp hentry
            obtain ⟨message, -, rfl⟩ := mem_map.mp hentry
            simp only [isKey, Bool.and_eq_true, decide_eq_true_eq] at hkey
            refine hnodup.1 (mem_map.mpr ⟨s', mem_of_mem_filter hs', ?_⟩)
            rw [hkey.1, hnumber]
          rw [hlater, hnumber]
          simp [isKey, Function.comp_def]
        · have hhere : (s.messages.map fun message => (s.number, message)).find?
              (isKey (set + 1) number) = none := by
            simp [isKey, hnumber]
          rw [hhere]
          simpa [hnumber] using ih hnodup.2
  exact hsets cat.sets h.sets_nodup

/-! ## Offsets and texts -/

@[simp] theorem texts_cons (entry : Nat × Message) (rest : List (Nat × Message)) :
    texts (entry :: rest) = entry.2.text ++ 0 :: texts rest := by
  simp [texts]

variable {messages : List (Nat × Message)} {cell : Nat × Nat × Nat} {offset i size : Nat}
  {name : Nat → Option Nat}

theorem layout_offset_lt (h : cell ∈ layout offset messages) :
    cell.2.2 < offset + (texts messages).length := by
  induction messages generalizing offset with
  | nil => cases h
  | cons entry rest ih =>
    rw [texts_cons, length_append, length_cons]
    rcases mem_cons.mp h with rfl | hrest
    · dsimp only
      omega
    · have hlt := ih hrest
      omega

theorem length_texts_pos (h : messages ≠ []) : 0 < (texts messages).length := by
  obtain ⟨entry, rest, rfl⟩ := exists_cons_of_ne_nil h
  rw [texts_cons, length_append, length_cons]
  omega

theorem last_texts (h : messages ≠ []) :
    (texts messages)[(texts messages).length - 1]? = some 0 := by
  rw [← getLast?_eq_getElem?]
  induction messages with
  | nil => exact absurd rfl h
  | cons entry rest ih =>
    rw [texts_cons, getLast?_append]
    cases rest with
    | nil => rfl
    | cons entry' rest =>
      rw [getLast?_cons, ih (cons_ne_nil _ _)]
      rfl

/-- A message that is found has a cell, and its offset, up to `2 ^ 32`, is where its text starts. -/
theorem find?_layout (head : List UInt8) (messages : List (Nat × Message)) (set number : Nat) :
    match messages.find? (isKey set number) with
    | none =>
      (layout head.length messages).find? (fun cell => cell.1 = set && cell.2.1 = number) = none
    | some entry => ∃ before after,
      head ++ texts messages = before ++ (entry.2.text ++ 0 :: after) ∧
        before.length ≤ head.length + (texts messages.dropLast).length ∧
        (layout head.length messages).find? (fun cell => cell.1 = set && cell.2.1 = number) =
          some (set, number, before.length % 2 ^ 32) := by
  induction messages generalizing head with
  | nil => rfl
  | cons entry rest ih =>
    obtain ⟨s, message⟩ := entry
    rw [find?_cons, layout, find?_cons]
    by_cases hkey : s = set ∧ message.number = number
    · obtain ⟨rfl, rfl⟩ := hkey
      simp only [isKey]
      exact ⟨head, texts rest, by rw [texts_cons], Nat.le_add_right _ _, rfl⟩
    · have hnot : (decide (s = set) && decide (message.number = number)) = false := by
        simpa [not_and] using hkey
      have hrest := ih (head ++ (message.text ++ [0]))
      have hlength : (head ++ (message.text ++ [0])).length =
          head.length + (message.text.length + 1) := by simp
      rw [hlength] at hrest
      simp only [isKey, hnot]
      cases hfound : rest.find? (isKey set number) with
      | none =>
        simpa only [hfound] using hrest
      | some found =>
        rw [hfound] at hrest
        obtain ⟨before, after, happend, hle, hlayout⟩ := hrest
        refine ⟨before, after, ?_, ?_, hlayout⟩
        · rw [← happend]
          simp
        · have hne : rest ≠ [] := by
            rintro rfl
            cases hfound
          rw [dropLast_cons_of_ne_nil hne, texts_cons, length_append, length_cons]
          dsimp only
          omega

theorem cString_text (before text after : List UInt8) :
    Libc.cString (before ++ (text ++ 0 :: after)) before.length =
      some (text.takeWhile (· ≠ 0)) := by
  rw [Libc.cString, drop_left]
  have hmem : (0 : UInt8) ∈ text ++ 0 :: after := by simp
  rw [if_pos hmem]
  congr 1
  induction text with
  | nil => simp
  | cons b text ih =>
    rw [cons_append, takeWhile_cons, takeWhile_cons, ih (by simp)]

/-! ## The file -/

section Open

variable {messages : List (Nat × Message)} (w : Written messages) (items : List Nat)

theorem length_words : (items.flatMap (leBytes 4)).length = 4 * items.length :=
  length_flatMap_eq (length_leBytes 4) items

theorem length_swapped :
    (items.flatMap fun value => leBytes 4 (swapBytes 4 value)).length = 4 * items.length :=
  length_flatMap_eq (fun value => length_leBytes 4 (swapBytes 4 value)) items

namespace Written

theorem length_file : w.file.length = 12 + 8 * w.table.length + (texts messages).length := by
  simp only [file, fileBytes, length_append, length_words, length_swapped, length_cons,
    length_nil]
  omega

theorem drop_file (offset : Nat) :
    w.file.drop (12 + 8 * w.table.length + offset) = (texts messages).drop offset := by
  rw [← drop_drop]
  congr 1
  rw [file, fileBytes, ← append_assoc, ← append_assoc, drop_left']
  simp only [length_append, length_words, length_swapped, length_cons, length_nil]
  omega

variable {j : Nat}

theorem readNat_header (order : ByteOrder) {word : Nat}
    (h : [catgetsMagic, w.planeSize, w.planeDepth][j]? = some word) :
    readNat order 4 w.file (4 * j) = some (order.toNat (leBytes 4 word)) := by
  have hread := readNat_flatMap (length_leBytes 4) order []
    (w.table.flatMap (leBytes 4) ++
      (w.table.flatMap (fun value => leBytes 4 (swapBytes 4 value)) ++ texts messages)) _ h
  rwa [length_nil, zero_add] at hread

/-- What the reader keeps of the file: its own table is the one in its byte order. -/
def info (order : ByteOrder) : Libc.CatalogInfo where
  planeSize := w.planeSize
  planeDepth := w.planeDepth
  namePtr := Libc.namePtr order w.table.length
  strings := 12 + 8 * w.table.length

/-- Both tables hold the same words, each in its own byte order. -/
theorem name_eq (order : ByteOrder) (hj : j < w.table.length) :
    Libc.name order w.file (w.info order).namePtr j = some w.table[j] := by
  have hword : w.table[j] < 256 ^ 4 := w.filled.word_lt _ (getElem_mem hj)
  have hheader : ([catgetsMagic, w.planeSize, w.planeDepth].flatMap (leBytes 4)).length = 12 := by
    rfl
  cases order with
  | little =>
    have hread := readNat_flatMap (length_leBytes 4) .little
      ([catgetsMagic, w.planeSize, w.planeDepth].flatMap (leBytes 4))
      (w.table.flatMap (fun value => leBytes 4 (swapBytes 4 value)) ++ texts messages) w.table
      (getElem?_eq_getElem hj)
    rwa [ByteOrder.toNat, leNat_leBytes hword] at hread
  | big =>
    have hread := readNat_flatMap (fun value => length_leBytes 4 (swapBytes 4 value)) .big
      ([catgetsMagic, w.planeSize, w.planeDepth].flatMap (leBytes 4) ++
        w.table.flatMap (leBytes 4))
      (texts messages) w.table (getElem?_eq_getElem hj)
    rw [ByteOrder.toNat, leBytes_swapBytes, beNat_beBytes hword, length_append, hheader,
      length_words] at hread
    exact hread

theorem offset_lt {k : Nat} (hk : 3 * k + 2 < w.table.length) :
    w.table[3 * k + 2] < (texts messages).length := by
  rcases w.filled.holds.origin k _ (cellAt_table hk) with hblank | ⟨item, hitem, heq⟩
  · rw [show w.table[3 * k + 2] = 0 from congrArg (fun cell => cell.2.2) hblank]
    exact length_texts_pos w.storable.nonempty
  · obtain ⟨cell, hcell, rfl⟩ := mem_map.mp hitem
    have hlt := layout_offset_lt hcell
    rwa [zero_add, show cell = _ from heq] at hlt

theorem nul_file :
    w.file[12 + 8 * w.table.length + ((texts messages).length - 1)]? = some 0 := by
  have hdrop := congrArg (·[0]?) (w.drop_file ((texts messages).length - 1))
  simpa [last_texts w.storable.nonempty] using hdrop

theorem openTables_eq (order : ByteOrder) (hfile : w.file.length < 2 ^ 63) :
    Libc.openTables order w.file w.planeSize w.planeDepth = .opened (w.info order) := by
  have hlength := w.length_file
  have hpos := length_texts_pos w.storable.nonempty
  have hwords : w.planeSize * w.planeDepth * 3 = w.table.length := by
    rw [w.filled.length_eq, mul_comm]
  have htab : 3 * w.planeSize * w.planeDepth = w.table.length := by
    rw [w.filled.length_eq, mul_assoc]
  have hmod : w.table.length % 2 ^ 64 = w.table.length := Nat.mod_eq_of_lt (by omega)
  have hmod2 : w.table.length * 2 % 2 ^ 64 = w.table.length * 2 := Nat.mod_eq_of_lt (by omega)
  obtain ⟨largest, hlargest, hlt⟩ := Libc.maxOffset_spec (P := (· < (texts messages).length))
    (fun k hk => ⟨_, w.name_eq order hk, w.offset_lt hk⟩) 0 hpos
  have hroom : ¬w.file.length ≤ (Libc.headerSize + 2 * w.table.length + largest) % 2 ^ 64 := by
    rw [hlength, Libc.headerSize]
    omega
  have hclosed : Libc.nulTerminated w.file (12 + 8 * w.table.length + largest)
      ((w.file.length - Libc.headerSize + 2 * w.table.length + largest) % 2 ^ 64) = some true := by
    apply Libc.nulTerminated_eq_true w.nul_file (n := (texts messages).length - 1 - largest)
    · omega
    · rw [Libc.headerSize]
      omega
    · exact Nat.mod_lt _ (Nat.two_pow_pos 64)
  have hstrings : Libc.headerSize + 4 * (w.table.length * 2) = 12 + 8 * w.table.length := by
    rw [Libc.headerSize]
    omega
  unfold Libc.openTables
  simp only [hwords, htab, hmod, hmod2, hstrings]
  rw [show Libc.namePtr order w.table.length = (w.info order).namePtr from rfl, hlargest]
  simp only [hroom, hclosed]
  rfl

theorem openCatalog_eq (order : ByteOrder) (hfile : w.file.length < 2 ^ 63) :
    Libc.openCatalog order w.file = .opened (w.info order) := by
  have hlength := w.length_file
  have hheader : ¬w.file.length < Libc.headerSize := by
    rw [Libc.headerSize]
    omega
  have hsize : w.planeSize < 256 ^ 4 := by
    have hle := Nat.le_mul_of_pos_right w.planeSize w.dimensions.depth_pos
    have hsmall := w.small
    omega
  have hdepth : w.planeDepth < 256 ^ 4 := by
    have hle := Nat.le_mul_of_pos_left w.planeDepth w.dimensions.size_pos
    have hsmall := w.small
    omega
  have hmagic := w.readNat_header order (j := 0) rfl
  have hplaneSize := w.readNat_header order (j := 1) rfl
  have hplaneDepth := w.readNat_header order (j := 2) rfl
  rw [Libc.openCatalog, if_neg hheader, hmagic, hplaneSize, hplaneDepth]
  dsimp only
  cases order with
  | little =>
    rw [ByteOrder.toNat, leNat_leBytes hsize, leNat_leBytes hdepth]
    exact w.openTables_eq .little hfile
  | big =>
    -- the header is little endian: its magic number and sizes are read swapped
    have hswap : ∀ word, word < 256 ^ 4 →
        swapBytes 4 (ByteOrder.big.toNat (leBytes 4 word)) = word := fun word =>
      swapBytes_swapBytes
    rw [hswap _ hsize, hswap _ hdepth]
    exact w.openTables_eq .big hfile

end Written

end Open

/-! ## Searching -/

def matchesCell (set number : Nat) (cell : Nat × Nat × Nat) : Bool :=
  cell.1 = set && cell.2.1 = number

theorem compareName_eq (h : cellAt name i = some cell) (set number : Nat)
    (next : Option (Option Nat)) : Libc.compareName name set number (3 * i) next =
      if matchesCell set number cell then some (some cell.2.2) else next := by
  simp only [cellAt, Option.bind_eq_some_iff, Option.map_eq_some_iff] at h
  obtain ⟨s, hs, n, hn, offset, hoffset, rfl⟩ := h
  rw [Libc.compareName, hs]
  by_cases hset : s = set <;> by_cases hnumber : n = number <;>
    simp [matchesCell, hnumber, hn, hoffset]

theorem searchNames_eq {cells : Nat → Option (Nat × Nat × Nat)} (set number : Nat) {planes : Nat}
    (h : ∀ k ≤ planes, ∃ cell, cells (i + k * size) = some cell ∧
      cellAt name (i + k * size) = some cell) :
    Libc.searchNames name size set number planes (3 * i) =
      (Planes.search size cells (matchesCell set number) i (planes + 1)).map
        (Option.map fun cell => cell.2.2) := by
  induction planes generalizing i with
  | zero =>
    obtain ⟨cell, hcell, hname⟩ := h 0 (Nat.zero_le _)
    rw [zero_mul, add_zero] at hcell hname
    rw [Libc.searchNames, compareName_eq hname, Planes.search, hcell]
    dsimp only
    split <;> rfl
  | succ planes ih =>
    obtain ⟨cell, hcell, hname⟩ := h 0 (Nat.zero_le _)
    rw [zero_mul, add_zero] at hcell hname
    have hnext := ih (i := i + size) fun k hk => by
      have hstep := h (k + 1) (by omega)
      rwa [add_mul, one_mul, add_comm _ size, ← add_assoc] at hstep
    rw [mul_add, mul_comm 3 size] at hnext
    rw [Libc.searchNames, compareName_eq hname, hnext, Planes.search.eq_def size _ _ i, hcell]
    dsimp only
    split <;> rfl

variable {r : Nat} (n : Nat) (mode : Overflow)

theorem find?_chain {p : Nat × Nat × Nat → Bool} (cells : List (Nat × Nat × Nat))
    (h : ∀ cell ∈ cells, p cell = true → cell.1 * cell.2.1 % size = r ∧ vacant cell = false) :
    (Planes.chain vacant r (cells.map (hashed size))).find? p = cells.find? p := by
  induction cells with
  | nil => rfl
  | cons cell cells ih =>
    have hrest := ih fun c hc => h c (mem_cons_of_mem _ hc)
    have hcell := h cell (mem_cons_self ..)
    rw [Planes.chain] at hrest ⊢
    rw [map_cons, filter_cons, find?_cons]
    cases hp : p cell with
    | true =>
      obtain ⟨hhash, hvacant⟩ := hcell hp
      simp [hashed, hhash, hvacant, hp]
    | false =>
      split
      · rw [map_cons, find?_cons, show p (hashed size cell).2 = false from hp]
        exact hrest
      · exact hrest

theorem mem_layout (h : cell ∈ layout offset messages) :
    ∃ entry ∈ messages, cell.1 = entry.1 ∧ cell.2.1 = entry.2.number := by
  induction messages generalizing offset with
  | nil => cases h
  | cons entry rest ih =>
    rcases mem_cons.mp h with rfl | hrest
    · exact ⟨entry, mem_cons_self .., rfl, rfl⟩
    · obtain ⟨found, hfound, heq⟩ := ih hrest
      exact ⟨found, mem_cons_of_mem _ hfound, heq⟩

/-- No stored set has a number beyond `int`, so that its successor wraps. -/
theorem Storable.find?_layout_eq_none (h : Storable messages) {set : Nat} (hset : 2 ^ 31 ≤ set)
    (number : Nat) : (layout 0 messages).find? (matchesCell set number) = none := by
  rw [find?_eq_none]
  intro cell hcell hmatch
  obtain ⟨entry, hentry, hfst, -⟩ := mem_layout hcell
  have hprod := h.product_lt entry hentry
  have hle := Nat.le_mul_of_pos_right entry.1 (h.number_pos entry hentry)
  simp only [matchesCell, Bool.and_eq_true, decide_eq_true_eq] at hmatch
  omega

namespace Written

variable {messages : List (Nat × Message)} (w : Written messages)

/-- **The reader finds the cell of the pair it is asked for**, in the chain of the pair. -/
theorem searchNames_eq (order : ByteOrder) (set number : Nat) (hset : 0 < set)
    (hr : r < w.planeSize)
    (hchain : ∀ cell ∈ layout 0 messages, matchesCell set number cell = true →
      cell.1 * cell.2.1 % w.planeSize = r) :
    Libc.searchNames (Libc.name order w.file (w.info order).namePtr) w.planeSize set number
        (w.planeDepth - 1) (3 * r) =
      some (((layout 0 messages).find? (matchesCell set number)).map fun cell => cell.2.2) := by
  have hdepth := w.dimensions.depth_pos
  have hvacant : ∀ cell, vacant cell = true → matchesCell set number cell = false := by
    intro cell hcell
    have hzero : cell.1 = 0 := by simpa [vacant] using hcell
    have hne : cell.1 ≠ set := by omega
    simp [matchesCell, hne]
  have hoccupied : ∀ cell, matchesCell set number cell = true → vacant cell = false := by
    intro cell hcell
    by_contra hfalse
    rw [hvacant cell (by simpa using hfalse)] at hcell
    cases hcell
  have hcells : ∀ k ≤ w.planeDepth - 1, ∃ cell,
      cellAt (w.table[·]?) (r + k * w.planeSize) = some cell ∧
        cellAt (Libc.name order w.file (w.info order).namePtr) (r + k * w.planeSize) =
          some cell := by
    intro k hk
    have hlt := w.filled.position_lt hr (k := k) (by omega)
    refine ⟨_, cellAt_table hlt, ?_⟩
    simp [cellAt, w.name_eq order (Nat.lt_of_add_right_lt hlt), w.name_eq order hlt,
      w.name_eq order (Nat.lt_of_succ_lt hlt)]
  rw [Catgets.searchNames_eq set number hcells, Nat.sub_add_cancel hdepth,
    w.filled.holds.search_eq hr hvacant,
    find?_chain _ fun cell hcell hp => ⟨hchain cell hcell hp, hoccupied cell hp⟩]
  rfl

variable {n m : Nat}

theorem catgets_eq (order : ByteOrder) (hn : n < 2 ^ 31) :
    Libc.catgets order w.file (w.info order) n m =
      some (((layout 0 messages).find? (matchesCell (n + 1) m)).map fun cell =>
        (w.info order).strings + cell.2.2) := by
  unfold Libc.catgets
  dsimp only
  by_cases hlast : n + 1 = 2 ^ 31
  · have hset : ((n : Int) + 1).bmod (2 ^ 32) ≤ 0 := by
      simp only [Int.bmod]
      split <;> omega
    rw [if_pos (.inl hset), w.storable.find?_layout_eq_none (le_of_eq hlast.symm)]
    rfl
  · have hset : ((n : Int) + 1).bmod (2 ^ 32) = (n + 1 : Nat) := by
      rw [Int.bmod_eq_of_le_mul_two] <;> omega
    have hsize := w.dimensions.size_pos
    rw [hset, show (w.info order).planeSize = w.planeSize from rfl,
      show (w.info order).planeDepth = w.planeDepth from rfl, if_neg (Nat.ne_of_gt hsize),
      Int.toNat_natCast, Int.toNat_natCast, mul_comm _ 3,
      w.searchNames_eq order (n + 1) m (Nat.succ_pos n) (Nat.mod_lt _ hsize)]
    · simp [Function.comp_def]
    · -- a stored pair has a small product, which is its own remainder
      intro cell hcell hmatch
      obtain ⟨entry, hentry, hfst, hsnd⟩ := mem_layout hcell
      simp only [matchesCell, Bool.and_eq_true, decide_eq_true_eq] at hmatch
      have hprod : (n + 1) * m < 2 ^ 31 := by
        rw [← hmatch.1, ← hmatch.2, hfst, hsnd]
        exact w.storable.product_lt entry hentry
      have hself : (((n + 1 : Nat) : Int) * (m : Int)).bmod (2 ^ 32) % 2 ^ 64 =
          ((n + 1) * m : Nat) := by
        rw [Int.bmod_eq_of_le_mul_two] <;> omega
      rw [hmatch.1, hmatch.2, hself, Int.toNat_natCast]

/-- **What `catgets` returns from the file** is the string at the offset in the cell of the pair. -/
theorem catgetsText_eq (order : ByteOrder) (hn : n < 2 ^ 31) :
    Libc.catgetsText order w.file (w.info order) n m =
      match (layout 0 messages).find? (matchesCell (n + 1) m) with
      | none => some none
      | some cell => (Libc.cString (texts messages) cell.2.2).map some := by
  rw [Libc.catgetsText, w.catgets_eq order hn]
  cases (layout 0 messages).find? (matchesCell (n + 1) m) with
  | none => rfl
  | some cell =>
    have hdrop := w.drop_file cell.2.2
    simp only [Option.map_some, Libc.cString, info, hdrop]

end Written

/-! ## The round trip -/

/-- The writer succeeds, and on a machine of either byte order the reader opens what it wrote and
returns the texts of the catalog, up to their first NUL, and nothing else. A file is shorter than
`2 ^ 63` bytes. -/
def RoundTrips (mode : Overflow) (cat : Catalog) : Prop :=
  ∃ file, writeCatalog mode cat = some file ∧ (file.length < 2 ^ 63 → ∀ order,
    ∃ info, Libc.openCatalog order file = .opened info ∧
      ∀ n m : Nat, n < 2 ^ 31 → m < 2 ^ 31 →
        Libc.catgetsText order file info n m =
          some ((cat.lookup n m).map fun text => text.takeWhile (· ≠ 0)))

/-- **Round trip.** Every catalog that holds some messages, fewer than `2 ^ 15`, with products of
their numbers below `2 ^ 31`, is read back as it was written, if the texts before the last one take
less than `2 ^ 32` bytes. -/
theorem roundTrips {mode : Overflow} {cat : Catalog} (reached : Reachable mode cat)
    (hpos : 0 < cat.stored.length) (hlen : cat.stored.length < 2 ^ 15)
    (hprod : ∀ entry ∈ cat.stored, entry.1 * entry.2.number < 2 ^ 31)
    (hfits : (texts cat.stored.dropLast).length < 2 ^ 32) : RoundTrips mode cat := by
  have hvalid := reached.valid
  obtain ⟨w, hwrite⟩ := writeCatalog_spec mode (hvalid.storable hpos hlen hprod)
  refine ⟨w.file, hwrite, fun hfile order => ⟨w.info order, w.openCatalog_eq order hfile, ?_⟩⟩
  intro n m hn _
  have hlayout := find?_layout [] cat.stored (n + 1) m
  rw [w.catgetsText_eq order hn, ← hvalid.find?_stored n m]
  cases hfound : cat.stored.find? (isKey (n + 1) m) with
  | none =>
    rw [hfound] at hlayout
    rw [show (layout 0 cat.stored).find? (matchesCell (n + 1) m) = none from hlayout]
    rfl
  | some entry =>
    rw [hfound] at hlayout
    obtain ⟨before, after, htexts, hle, hcell⟩ := hlayout
    rw [nil_append] at htexts
    rw [length_nil, zero_add] at hle
    rw [show (layout 0 cat.stored).find? (matchesCell (n + 1) m) = _ from hcell]
    dsimp only
    rw [Nat.mod_eq_of_lt (lt_of_le_of_lt hle hfits), htexts, cString_text]
    rfl

theorem roundTrips_greetings :
    RoundTrips .panic
      ⟨[⟨2, false, [], 0⟩, ⟨4, false, [⟨1, bytesOf "hello"⟩, ⟨2, bytesOf "good bye"⟩], 2⟩], 1, 3⟩ :=
  roundTrips (Reachable.new.readInput (show Catalog.new.readInput .panic
      (bytesOf "$set 3\n1 hello\n2 good\\\n bye\n") = some _ by decide +kernel))
    (by decide +kernel) (by decide +kernel) (by decide +kernel) (by decide +kernel)

/-! ## Offsets that do not fit -/

def longCatalog (n : Nat) : Catalog :=
  ⟨[⟨nlSetd + 1, false, [⟨1, List.replicate n (byte 'a')⟩, ⟨2, [byte 'b']⟩], 2⟩], 0, 0⟩

theorem stored_longCatalog : (longCatalog n).stored =
    [(2, ⟨1, replicate n (byte 'a')⟩), (2, ⟨2, [byte 'b']⟩)] := rfl

theorem longCatalog_product_lt :
    ∀ entry ∈ (longCatalog n).stored, entry.1 * entry.2.number < 2 ^ 31 := by
  simp [stored_longCatalog]

theorem longCatalog_reachable (n : Nat) : Reachable mode (longCatalog n) := by
  have hplain : byte '\\' ∉ replicate n (byte 'a') := fun hmem =>
    absurd (eq_of_mem_replicate hmem) (by decide)
  have hfirst : messageLine mode (byte '1' :: byte ' ' :: replicate n (byte 'a'))
      ⟨Catalog.new, none, .bytes⟩ = Catalog.new.addMessage 1
        (normalizeMessage (replicate n (byte 'a')) none .bytes) := rfl
  rw [normalizeMessage_plain hplain] at hfirst
  have hone : processLine mode (byte '1' :: byte ' ' :: replicate n (byte 'a'))
      ⟨Catalog.new, none, .bytes⟩ =
        some ⟨⟨[⟨nlSetd + 1, false, [⟨1, replicate n (byte 'a')⟩], 1⟩], 0, 0⟩, none,
          .bytes⟩ := by
    simp only [processLine, hfirst]
    rfl
  have hreached := Reachable.new.line _ none .bytes hone
  have hsecond : messageLine mode [byte '2', byte ' ', byte 'b']
      ⟨⟨[⟨nlSetd + 1, false, [⟨1, replicate n (byte 'a')⟩], 1⟩], 0, 0⟩, none, .bytes⟩ =
        Catalog.addMessage ⟨[⟨nlSetd + 1, false, [⟨1, replicate n (byte 'a')⟩], 1⟩], 0, 0⟩ 2
          (normalizeMessage [byte 'b'] none .bytes) := rfl
  rw [normalizeMessage_plain (by decide)] at hsecond
  have htwo : processLine mode [byte '2', byte ' ', byte 'b']
      ⟨⟨[⟨nlSetd + 1, false, [⟨1, replicate n (byte 'a')⟩], 1⟩], 0, 0⟩, none, .bytes⟩ =
        some ⟨longCatalog n, none, .bytes⟩ := by
    simp only [processLine, hsecond]
    rfl
  exact hreached.line _ none .bytes htwo

/-- When the first text and its NUL use up all 32-bit offsets, the second message is read from the
first one's text. -/
theorem longCatalog_not_roundTrips {n : Nat} (hn : n + 1 = 2 ^ 32) :
    ¬RoundTrips mode (longCatalog n) := by
  rintro ⟨file, hwrite, hread⟩
  have hstorable : Storable (longCatalog n).stored :=
    (longCatalog_reachable mode n).valid.storable (by simp [stored_longCatalog])
      (by simp [stored_longCatalog]) (longCatalog_product_lt n)
  obtain ⟨w, hw⟩ := writeCatalog_spec mode hstorable
  obtain rfl : w.file = file := Option.some.inj (hw.symm.trans hwrite)
  have hshort : w.file.length < 2 ^ 63 := by
    have htexts : (texts (longCatalog n).stored).length = n + 3 := by
      simp [stored_longCatalog, texts]
    have hlength := w.length_file
    have hwords := w.filled.length_eq
    have hsmall := w.small
    omega
  obtain ⟨info, hopened, htext⟩ := hread hshort .little
  rw [w.openCatalog_eq .little hshort] at hopened
  obtain rfl : w.info .little = info := Libc.OpenResult.opened.inj hopened
  have hwrong := htext 1 2 (by decide) (by decide)
  have hcell : (layout 0 (longCatalog n).stored).find? (matchesCell 2 2) = some (2, 2, 0) := by
    simp [stored_longCatalog, layout, matchesCell, hn]
  have hstring : Libc.cString (texts (longCatalog n).stored) 0 =
      some ((replicate n (byte 'a')).takeWhile (· ≠ 0)) := by
    rw [stored_longCatalog, texts_cons]
    exact cString_text [] (replicate n (byte 'a')) _
  rw [w.catgetsText_eq .little (by decide), hcell] at hwrong
  dsimp only at hwrong
  rw [hstring, show (longCatalog n).lookup 1 2 = some [byte 'b'] from rfl] at hwrong
  -- `n` letters against one
  have hlengths := congrArg (fun found => (found.getD none).map List.length) hwrong
  simp [byte] at hlengths
  omega

theorem roundTrips_offset_wraps :
    Reachable .wrap (longCatalog (2 ^ 32 - 1)) ∧ 0 < (longCatalog (2 ^ 32 - 1)).stored.length ∧
      (longCatalog (2 ^ 32 - 1)).stored.length < 2 ^ 15 ∧
      (∀ entry ∈ (longCatalog (2 ^ 32 - 1)).stored, entry.1 * entry.2.number < 2 ^ 31) ∧
      ¬RoundTrips .wrap (longCatalog (2 ^ 32 - 1)) :=
  ⟨longCatalog_reachable _ _, Nat.two_pos, by decide, longCatalog_product_lt _,
    longCatalog_not_roundTrips _ (Nat.sub_add_cancel (Nat.one_le_two_pow))⟩

end SafeLibc.Catgets
