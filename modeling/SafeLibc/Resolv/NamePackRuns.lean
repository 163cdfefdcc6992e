import SafeLibc.Resolv.NamePack

/-!
# Names packed one after another

One call of `___ns_name_pack` keeps the names that the table lists packed (`nsNamePack_packed`), so
along every sequence of calls, with other bytes in between, all names can be decoded.
-/

namespace SafeLibc.Resolv.NsName

open SafeLibc.Lib List

/-! ## One call -/

variable {msg written rest : List UInt8} {dstsiz : Int} {dnptrs : Option Dnptrs} {saved : List Nat}
  {ls : List (List UInt8)}

/-- All names of the table are packed in the message. -/
def TableOk (msg : List UInt8) (dnptrs : Option Dnptrs) : Prop :=
  ∀ table, dnptrs = some table → ∀ t ∈ table.names, Listed msg msg.length t

variable {t limit off : Nat} {mem l : List UInt8} {n : UInt8} {ls' : List (List UInt8)}

theorem Listed.append (h : Listed mem limit t) (more : List UInt8) :
    Listed (mem ++ more) limit t := by
  obtain ⟨labels, e, hpacked, he⟩ := h
  exact ⟨labels, e, hpacked.append more, he⟩

theorem Listed.mono {limit' : Nat} (h : Listed mem limit t) (hle : limit ≤ limit') :
    Listed mem limit' t := by
  obtain ⟨labels, e, hpacked, he⟩ := h
  exact ⟨labels, e, hpacked, le_trans he hle⟩

/-- What the loop appends: packed labels, those of the source up to case, and packed entries. -/
def Appends (msg written : List UInt8) (ls : List (List UInt8)) (saved : List Nat)
    (r : Except PackFault (Option (List UInt8 × List Nat))) : Prop :=
  ∃ tail saved' ls', r = .ok (some (written ++ tail, saved')) ∧ SameName ls ls' ∧
    Packed (msg ++ (written ++ tail)) msg.length (msg ++ written).length ls'
      (msg ++ (written ++ tail)).length ∧
    ∀ t ∈ saved', t ∈ saved ∨ Listed (msg ++ (written ++ tail)) (msg ++ (written ++ tail)).length t

theorem appends_pointer (hne : ls ≠ []) (hfinds : Finds (msg ++ written) msg.length ls off) :
    Appends msg written ls saved (.ok (some (written ++
      [UInt8.ofNat (off >>> 8) ||| 0xc0, UInt8.ofNat (off % 256)], saved))) := by
  obtain ⟨hoff, labels, e, hpacked, he, hsame⟩ := hfinds
  obtain ⟨hptr, htarget⟩ := indirection_offset hoff
  obtain ⟨label, labels, rfl⟩ : ∃ label rest, labels = label :: rest := by
    refine exists_cons_of_ne_nil fun hnil => hne ?_
    rw [hnil, SameName, map_nil, map_eq_nil_iff] at hsame
    exact hsame
  refine ⟨_, saved, label :: labels, rfl, hsame, ?_, fun t ht => .inl ht⟩
  generalize UInt8.ofNat (off >>> 8) ||| 0xc0 = hi at *
  generalize UInt8.ofNat (off % 256) = lo at *
  have hend : (msg ++ (written ++ [hi, lo])).length = (msg ++ written).length + 2 := by
    simp [add_assoc]
  rw [hend, ← append_assoc]
  refine .pointer (getElem?_append_cons _ hi [lo] rfl) hptr ?_ htarget he (hpacked.append _)
  simp [add_assoc]

theorem appends_root : Appends msg written [] saved (.ok (some (written ++ [0], saved))) := by
  refine ⟨[0], saved, [], rfl, rfl, ?_, fun t ht => .inl ht⟩
  have hend : (msg ++ (written ++ [0])).length = (msg ++ written).length + 1 := by
    simp [add_assoc]
  rw [hend, ← append_assoc]
  exact .root (getElem?_append_cons _ 0 [] rfl)

/-- The loop goes on after a label, which may have been saved. -/
theorem Appends.label (hl : 0 < l.length ∧ l.length ≤ dnsLabelMax) {saved₁ : List Nat}
    (hsaved : ∀ t ∈ saved₁, t ∈ saved ∨ t = msg.length + written.length)
    {r : Except PackFault (Option (List UInt8 × List Nat))}
    (h : Appends msg (written ++ UInt8.ofNat l.length :: l) ls saved₁ r) :
    Appends msg written (l :: ls) saved r := by
  obtain ⟨tail, saved', ls', rfl, hsame, hpacked, hentries⟩ := h
  have hmove : written ++ UInt8.ofNat l.length :: l ++ tail =
      written ++ (UInt8.ofNat l.length :: (l ++ tail)) := by simp
  have hoctet : (UInt8.ofNat l.length).toNat = l.length := by
    have := hl.2
    rw [dnsLabelMax] at this
    rw [UInt8.toNat_ofNat']
    omega
  rw [hmove] at hpacked hentries
  have hhere : Packed (msg ++ (written ++ (UInt8.ofNat l.length :: (l ++ tail)))) msg.length
      (msg ++ written).length (l :: ls')
      (msg ++ (written ++ (UInt8.ofNat l.length :: (l ++ tail)))).length := by
    have hpos : (msg ++ (written ++ UInt8.ofNat l.length :: l)).length =
        (msg ++ written).length + 1 + (UInt8.ofNat l.length).toNat := by
      simp only [length_append, length_cons]
      omega
    rw [hpos] at hpacked
    refine .label ?_ (by rw [hoctet]; exact hl.1) (by rw [hoctet]; exact hl.2) ?_ hoctet.symm
      hpacked
    · rw [← append_assoc]
      exact getElem?_append_cons _ _ _ rfl
    · rw [hoctet, ← append_assoc, drop_append, drop_eq_nil_of_le (by omega)]
      simp
  refine ⟨UInt8.ofNat l.length :: (l ++ tail), saved', l :: ls', by rw [hmove],
    sameName_cons.2 ⟨rfl, hsame⟩, hhere, fun t ht => ?_⟩
  rcases hentries t ht with ht | ht
  · rcases hsaved t ht with ht | rfl
    · exact .inl ht
    · rw [← length_append]
      exact .inr ⟨l :: ls', _, hhere.weaken (by rw [length_append]; omega), le_rfl⟩
  · exact .inr ht

theorem mem_packSave {offset : Nat} (h : t ∈ packSave dnptrs n offset saved) :
    t ∈ saved ∨ t = offset := by
  cases dnptrs with
  | none => exact .inl h
  | some table =>
    rw [packSave] at h
    split at h
    · exact .inr (mem_singleton.1 h)
    · exact .inl h

theorem packSave_root (offset : Nat) : packSave dnptrs 0 offset saved = saved := by
  cases dnptrs with
  | none => rfl
  | some table => rw [packSave, if_neg (fun h => h.1 rfl)]

theorem packLoop_root (hfind : packFind dnptrs (0 :: rest) (msg ++ written) = .ok none) :
    packLoop msg dstsiz dnptrs (0 :: rest) written saved =
      if 1 > dstsiz - written.length then .ok none else .ok (some (written ++ [0], saved)) := by
  rw [packLoop, hfind]
  have hzero : (0 : UInt8).toNat = 0 := rfl
  rw [packSave_root, hzero, if_neg (by decide), if_neg (Nat.not_lt_zero _), if_pos rfl]
  by_cases hroom : 1 > dstsiz - written.length
  · rw [if_pos hroom]
    exact if_pos hroom
  · rw [if_neg hroom]
    refine (if_neg hroom).trans ?_
    rw [if_neg]
    · rfl
    · simp only [length_append, length_cons, take_zero, length_nil]
      omega

theorem packLoop_label {tail : List UInt8} (hl : 0 < l.length ∧ l.length ≤ dnsLabelMax)
    (hfind : packFind dnptrs (UInt8.ofNat l.length :: (l ++ tail)) (msg ++ written) = .ok none) :
    packLoop msg dstsiz dnptrs (UInt8.ofNat l.length :: (l ++ tail)) written saved =
      if l.length + 1 > dstsiz - written.length then .ok none
      else packLoop msg dstsiz dnptrs tail (written ++ UInt8.ofNat l.length :: l)
        (packSave dnptrs (UInt8.ofNat l.length) (msg.length + written.length) saved) := by
  obtain ⟨hpos, hmax⟩ := hl
  rw [dnsLabelMax] at hmax
  have hoctet : (UInt8.ofNat l.length).toNat = l.length := by
    rw [UInt8.toNat_ofNat']
    omega
  have hshort : ¬ (l ++ tail).length < l.length := by
    rw [length_append]
    omega
  rw [packLoop, hfind, ok_bind]
  rw [hoctet, if_neg (not_le.2 (Nat.lt_succ_of_le hmax)),
    if_neg (octet_ne_zero (by rw [hoctet]; exact hpos)), take_left, drop_left, if_neg hshort]

theorem packLoop_found (hfind : packFind dnptrs (n :: rest) (msg ++ written) = .ok (some off)) :
    packLoop msg dstsiz dnptrs (n :: rest) written saved =
      if dstsiz - written.length ≤ 1 then .ok none
      else .ok (some (written ++ [UInt8.ofNat (off >>> 8) ||| 0xc0, UInt8.ofNat (off % 256)],
        saved)) := by
  rw [packLoop, hfind, ok_bind]

theorem packLoop_packed (ls : List (List UInt8))
    (hls : ∀ l ∈ ls, 0 < l.length ∧ l.length ≤ dnsLabelMax) (htable : TableOk msg dnptrs)
    (rest written : List UInt8) (saved : List Nat) :
    packLoop msg dstsiz dnptrs (domainOf ls rest) written saved = .ok none ∨
      Appends msg written ls saved
        (packLoop msg dstsiz dnptrs (domainOf ls rest) written saved) := by
  induction ls generalizing written saved with
  | nil =>
    obtain ⟨r, hfind, hfound⟩ := packFind_listed
      (fun table h t ht => (htable table h t ht).append written) [] hls rest
    have hdomain : domainOf [] rest = 0 :: rest := rfl
    cases r with
    | some off => exact absurd rfl (hfound off rfl).1
    | none =>
      rw [hdomain] at hfind ⊢
      rw [packLoop_root hfind]
      split
      · exact .inl rfl
      · exact .inr appends_root
  | cons l ls ih =>
    obtain ⟨r, hfind, hfound⟩ := packFind_listed
      (fun table h t ht => (htable table h t ht).append written) (l :: ls) hls rest
    rw [domainOf_cons] at hfind ⊢
    cases r with
    | some off =>
      obtain ⟨hne, hfinds⟩ := hfound off rfl
      rw [packLoop_found hfind]
      split
      · exact .inl rfl
      · exact .inr (appends_pointer hne hfinds)
    | none =>
      have hl := hls l mem_cons_self
      rw [packLoop_label hl hfind]
      split
      · exact .inl rfl
      · refine (ih (fun l hl => hls l (mem_cons_of_mem _ hl)) _ _).imp id fun happends => ?_
        exact happends.label hl fun t ht => mem_packSave ht

theorem legalLoop_labels (ls : List (List UInt8))
    (hls : ∀ l ∈ ls, 0 < l.length ∧ l.length ≤ dnsLabelMax) (rest : List UInt8) {len : Nat}
    (hlimit : len + wireLength ls ≤ nsMaxcdname) : legalLoop (domainOf ls rest) len = .ok true := by
  induction ls generalizing len with
  | nil =>
    have hdomain : domainOf [] rest = 0 :: rest := rfl
    have hone : ¬ len + ((0 : UInt8).toNat + 1) > nsMaxcdname := not_lt.2 hlimit
    rw [hdomain, legalLoop, if_neg (by decide), if_neg hone, if_pos rfl]
  | cons l ls ih =>
    obtain ⟨hpos, hmax⟩ := hls l mem_cons_self
    rw [dnsLabelMax] at hmax
    have hoctet : (UInt8.ofNat l.length).toNat = l.length := by
      rw [UInt8.toNat_ofNat']
      omega
    rw [wireLength, wireLabels_cons, length_cons, length_append] at hlimit
    rw [domainOf_cons, legalLoop, hoctet, if_neg (not_le.2 (Nat.lt_succ_of_le hmax)),
      if_neg (by omega), if_neg (octet_ne_zero (by rw [hoctet]; exact hpos)), drop_left]
    exact ih (fun l hl => hls l (mem_cons_of_mem _ hl)) (by rw [wireLength]; omega)

/-- **One call**: -1 and the table as it was, or a packed name with the labels of the source up to
the case of letters, after which all that is listed is packed. -/
theorem nsNamePack_packed (htable : TableOk msg dnptrs) (name : DomainName) (rest : List UInt8)
    (dstsiz : Int) :
    nsNamePack msg (name.wire ++ rest) dstsiz dnptrs = .ok (none, dnptrs) ∨
      ∃ written dnptrs' ls, nsNamePack msg (name.wire ++ rest) dstsiz dnptrs =
        .ok (some written, dnptrs') ∧
        SameName name.labels ls ∧
        Packed (msg ++ written) msg.length msg.length ls (msg ++ written).length ∧
        TableOk (msg ++ written) dnptrs' := by
  have hsrc : name.wire ++ rest = domainOf name.labels rest := by simp [DomainName.wire, domainOf]
  have hlegal : legalLoop (domainOf name.labels rest) 0 = .ok true :=
    legalLoop_labels name.labels name.label_length rest (by rw [zero_add]; exact name.wire_length)
  rw [hsrc, nsNamePack, hlegal, ok_bind, if_pos rfl]
  rcases packLoop_packed name.labels name.label_length htable rest [] [] with
    hfail | ⟨tail, saved, ls, hsome, hsame, hpacked, hsaved⟩
  · left
    rw [hfail, ok_bind]
  · right
    rw [append_nil] at hpacked
    rw [hsome]
    refine ⟨tail, _, ls, rfl, hsame, hpacked, fun table htable' t ht => ?_⟩
    obtain ⟨table₀, hdnptrs, rfl⟩ := Option.map_eq_some_iff.1 htable'
    rcases mem_append.1 ht with ht | ht
    · refine ((htable table₀ hdnptrs t ht).append tail).mono ?_
      rw [length_append]
      omega
    · exact (hsaved t ht).resolve_left not_mem_nil

/-! ## Runs -/

/-- What is done to a message: other bytes are appended, or a name is packed into a buffer that has
`dstsiz` bytes left. -/
inductive Op
  | bytes (other : List UInt8)
  | pack (name : DomainName) (dstsiz : Int)

/-- A message under construction, its table and the names packed. -/
structure Build where
  message : List UInt8
  dnptrs : Option Dnptrs
  packed : List (Nat × Nat × DomainName)

def Build.step (b : Build) : Op → Except PackFault Build
  | .bytes other => .ok { b with message := b.message ++ other }
  | .pack name dstsiz => do
    let (written, dnptrs) ← nsNamePack b.message name.wire dstsiz b.dnptrs
    match written with
    | some written => .ok {
        message := b.message ++ written
        dnptrs
        packed := b.packed ++ [(b.message.length, written.length, name)] }
    | none => .ok { b with dnptrs }

/-- All steps in order. -/
def Build.run (b : Build) (ops : List Op) : Except PackFault Build := ops.foldlM Build.step b

/-- The table is right, and so is every name packed so far. -/
structure Build.Ok (b : Build) : Prop where
  table : TableOk b.message b.dnptrs
  packed : ∀ o n name, (o, n, name) ∈ b.packed → ∃ ls e, Packed b.message o o ls e ∧
    e - o = n ∧ SameName name.labels ls

theorem TableOk.append (h : TableOk msg dnptrs) (more : List UInt8) :
    TableOk (msg ++ more) dnptrs :=
  fun table htable t ht => ((h table htable t ht).append more).mono (by rw [length_append]; omega)

variable {b : Build}

theorem Build.Ok.step (h : b.Ok) (op : Op) : ∃ b', b.step op = .ok b' ∧ b'.Ok := by
  have hkept : ∀ more o n name, (o, n, name) ∈ b.packed →
      ∃ ls e, Packed (b.message ++ more) o o ls e ∧ e - o = n ∧ SameName name.labels ls := by
    intro more o n name hmem
    obtain ⟨ls, e, hpacked, hrest⟩ := h.packed o n name hmem
    exact ⟨ls, e, hpacked.append more, hrest⟩
  cases op with
  | bytes other => exact ⟨_, rfl, h.table.append other, hkept other⟩
  | pack name dstsiz =>
    have hcall := nsNamePack_packed h.table name [] dstsiz
    rw [append_nil] at hcall
    rcases hcall with hfail | ⟨written, dnptrs', ls, hsome, hsame, hpacked, htable'⟩
    · exact ⟨_, by rw [Build.step, hfail]; rfl, h⟩
    · refine ⟨_, by rw [Build.step, hsome]; rfl, htable', fun o n other hmem => ?_⟩
      rcases mem_append.1 hmem with hmem | hmem
      · exact hkept written o n other hmem
      · cases mem_singleton.1 hmem
        refine ⟨ls, _, hpacked, ?_, hsame⟩
        rw [length_append, Nat.add_sub_cancel_left]

theorem Build.Ok.run (h : b.Ok) (ops : List Op) : ∃ b', b.run ops = .ok b' ∧ b'.Ok := by
  induction ops generalizing b with
  | nil => exact ⟨b, rfl, h⟩
  | cons op ops ih =>
    obtain ⟨b₁, hstep, h₁⟩ := h.step op
    obtain ⟨b', hrun, h'⟩ := ih h₁
    refine ⟨b', ?_, h'⟩
    rw [Build.run, foldlM_cons, hstep]
    exact hrun

/-! ## Decoding -/

theorem SameName.wire {ls : List (List UInt8)} (h : SameName ls ls') :
    (wireLabels ls).map mklower = (wireLabels ls').map mklower := by
  induction ls generalizing ls' with
  | nil => rw [map_eq_nil_iff.1 h.symm]
  | cons l ls ih =>
    cases ls' with
    | nil => nomatch h
    | cons l' ls' =>
      obtain ⟨hl, hrest⟩ := sameName_cons.1 h
      have hlength : l.length = l'.length := by simpa using congrArg List.length hl
      rw [wireLabels_cons, wireLabels_cons, map_cons, map_cons, map_append,
        map_append, hl, ih hrest, hlength]

theorem SameName.wireLength {ls : List (List UInt8)} (h : SameName ls ls') :
    wireLength ls = wireLength ls' := by
  have := congrArg List.length h.wire
  rw [length_map, length_map] at this
  rw [Resolv.wireLength, Resolv.wireLength, this]

theorem nsNamePack_fails {src : List UInt8} {dnptrs' : Option Dnptrs}
    (h : nsNamePack msg src dstsiz dnptrs = .ok (none, dnptrs')) : dnptrs' = dnptrs := by
  rw [nsNamePack] at h
  cases hlegal : legalLoop src 0 with
  | error f =>
    rw [hlegal] at h
    nomatch h
  | ok legal =>
    rw [hlegal, ok_bind] at h
    split at h
    · cases hloop : packLoop msg dstsiz dnptrs src [] [] with
      | error f =>
        rw [hloop] at h
        nomatch h
      | ok r =>
        rw [hloop] at h
        cases r with
        | none => exact (Prod.mk.inj (Except.ok.inj h)).2.symm
        | some r => nomatch h
    · exact (Prod.mk.inj (Except.ok.inj h)).2.symm

def Build.start (header : List UInt8) (last : Option Nat) : Build := ⟨header, some ⟨[], last⟩, []⟩

theorem Build.Ok.start (header : List UInt8) (last : Option Nat) :
    (Build.start header last).Ok := by
  refine ⟨fun table htable t ht => ?_, fun o n name hmem => (nomatch hmem)⟩
  cases htable
  nomatch ht

/-- **Every packed name can be decoded**, whatever is appended to the message and whatever the
capacity of the table: the decoder consumes the bytes that the call returned and gives the name up
to the case of letters. A call that fails leaves the table as it was, with the same names even where
it has written after the message. -/
theorem nsNamePack_unpack (header : List UInt8) (last : Option Nat) (ops : List Op) :
    ∃ b, (Build.start header last).run ops = .ok b ∧
      (∀ o n name, (o, n, name) ∈ b.packed → ∃ out,
        nsNameUnpack b.message o nsMaxcdname = some (some (n, out)) ∧
          out.map mklower = name.wire.map mklower) ∧
      ∀ src dstsiz dnptrs', nsNamePack b.message src dstsiz b.dnptrs = .ok (none, dnptrs') →
        dnptrs' = b.dnptrs ∧ ∀ table, dnptrs' = some table → ∀ t ∈ table.names, ∀ garbage,
          nsNameUnpack (b.message ++ garbage) t nsMaxcdname =
            nsNameUnpack b.message t nsMaxcdname := by
  obtain ⟨b, hrun, hok⟩ := (Build.Ok.start header last).run ops
  refine ⟨b, hrun, fun o n name hmem => ?_, fun src dstsiz dnptrs' hcall => ?_⟩
  · obtain ⟨ls, e, hpacked, hlength, hsame⟩ := hok.packed o n name hmem
    refine ⟨wireLabels ls ++ [0], ?_, ?_⟩
    · rw [hpacked.unpack (by decide), if_pos (hsame.wireLength ▸ name.wire_length), hlength]
    · rw [DomainName.wire, map_append, map_append, hsame.wire]
  · have hsame := nsNamePack_fails hcall
    refine ⟨hsame, fun table htable t ht garbage => ?_⟩
    obtain ⟨labels, e, hpacked, -⟩ := hok.table table (hsame ▸ htable) t ht
    rw [hpacked.unpack (by decide), (hpacked.append garbage).unpack (by decide)]

/-- Two names with a common end in other letters: the second is its first label and a pointer. -/
theorem nsNamePack_unpack_common :
    let first : DomainName := ⟨[bytesOf "a", bytesOf "org"], by decide, by decide⟩
    let second : DomainName := ⟨[bytesOf "b", bytesOf "ORG"], by decide, by decide⟩
    ∃ b, (Build.start [] (some 4)).run [.pack first 20, .bytes [7], .pack second 20] = .ok b ∧
      b.message = first.wire ++ [7] ++ [1, 98, 0xc0, 2] ∧
      ∃ out, nsNameUnpack b.message 8 255 = some (some (4, out)) ∧
        out.map mklower = second.wire.map mklower := by
  intro first second
  obtain ⟨b, hrun, hdecode, -⟩ :=
    nsNamePack_unpack [] (some 4) [.pack first 20, .bytes [7], .pack second 20]
  have hview :
      ((Build.start [] (some 4)).run [.pack first 20, .bytes [7], .pack second 20]).toOption.map
      (fun b => (b.message, b.packed.map fun p => (p.1, p.2.1, p.2.2.labels))) =
      some (first.wire ++ [7] ++ [1, 98, 0xc0, 2],
        [(0, 7, first.labels), (8, 4, second.labels)]) := by
    decide +kernel
  rw [hrun] at hview
  obtain ⟨hmessage, hpacked⟩ := Prod.mk.inj (Option.some.inj hview)
  have hmem : (8, 4, second.labels) ∈ b.packed.map fun p => (p.1, p.2.1, p.2.2.labels) := by
    rw [hpacked]
    exact mem_cons_of_mem _ mem_cons_self
  obtain ⟨⟨o, n, name⟩, hin, heq⟩ := mem_map.1 hmem
  simp only [Prod.mk.injEq] at heq
  obtain ⟨rfl, rfl, hlabels⟩ := heq
  obtain ⟨out, hunpack, hsame⟩ := hdecode _ _ name hin
  refine ⟨b, hrun, hmessage, out, hunpack, ?_⟩
  rw [hsame, DomainName.wire, DomainName.wire, hlabels]

end SafeLibc.Resolv.NsName
