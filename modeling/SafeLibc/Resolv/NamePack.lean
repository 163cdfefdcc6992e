import SafeLibc.Resolv.NamePton

/-!
# `___ns_name_pack` of `resolv/ns_name_pack.c`

A name is appended to a message in compressed form: at each label `dn_find` looks for the rest of
the name in the names that the `dnptrs` table lists, and where it is found a pointer to it ends the
name.

`Packed` is the form in which the function leaves names in the message: labels that end in the root
or in a pointer, where a pointer leads to a name that ends before the field that holds the pointer
starts. So the fields along a chain of pointers are disjoint, from which both searches end:
`dn_find` itself (`dnCompare_packed`), and the decoder with its count of bytes (`Packed.nameAt`).
-/

namespace SafeLibc.Resolv.NsName

open SafeLibc.Lib List

/-! ## The model -/

inductive PackFault
  /-- a read outside the message or the source -/
  | read
  /-- a chain of pointers without an end -/
  | endless
  deriving DecidableEq, Repr

def mklower (ch : UInt8) : UInt8 :=
  if ch ≥ byte 'A' && ch ≤ byte 'Z' then ch - byte 'A' + byte 'a' else ch

def byteAt (mem : List UInt8) (i : Nat) : Except PackFault UInt8 :=
  match mem[i]? with
  | some b => .ok b
  | none => .error .read

inductive Verdict
  /-- the return of `sp - msg` -/
  | found
  /-- `goto next` -/
  | next
  /-- the return of -1 for an illegal label type -/
  | illegal
  deriving DecidableEq, Repr

/-- `for (; n > 0; n--) if (mklower (*dn++) != mklower (*cp++)) goto next;` -/
def matchLabel (mem : List UInt8) : Nat → List UInt8 → Nat → Except PackFault (Option (List UInt8))
  | 0, dn, _ => .ok (some dn)
  | n + 1, dn, cp =>
    match dn, mem[cp]? with
    | d :: dn, some c => if mklower d ≠ mklower c then .ok none else matchLabel mem n dn (cp + 1)
    | _, _ => .error .read

/-- `cp = msg + (((n & 0x3f) << 8) | *cp);` -/
def indirection (n lo : UInt8) : Nat := ((n.toNat &&& 0x3f) <<< 8) ||| lo.toNat

/-- The loop over the labels at `cp`. The fuel is for the turns of the loop. -/
def dnCompare (mem : List UInt8) : Nat → List UInt8 → Nat → Except PackFault Verdict
  | 0, _, _ => .error .endless
  | fuel + 1, dn, cp => do
    let n ← byteAt mem cp
    if n = 0 then .ok .next
    else if n &&& 0xc0 = 0 then
      match dn with
      | [] => .error .read
      | d :: dn =>
        if n ≠ d then .ok .next
        else match ← matchLabel mem n.toNat dn (cp + 1) with
          | none => .ok .next
          | some [] => .error .read
          | some (d :: dn) =>
            if d ≠ 0 then dnCompare mem fuel (d :: dn) (cp + 1 + n.toNat)
            else do
              let c ← byteAt mem (cp + 1 + n.toNat)
              .ok (if c = 0 then .found else .next)
    else if n &&& 0xc0 = 0xc0 then do
      let lo ← byteAt mem (cp + 1)
      dnCompare mem fuel dn (indirection n lo)
    else .ok .illegal

/-- Between two labels there are at most as many pointers as bytes, unless they go round in a
circle. -/
def compareFuel (mem dn : List UInt8) : Nat := (dn.length + 1) * (mem.length + 1)

/-- The loop over the labels of one listed name, from `sp` on; `none` goes on to the next name. -/
def dnScan (domain mem : List UInt8) (sp : Nat) : Except PackFault (Option (Option Nat)) := do
  let n ← byteAt mem sp
  if n ≠ 0 ∧ n &&& 0xc0 = 0 ∧ sp < 0x4000 then
    match ← dnCompare mem (compareFuel mem domain) domain sp with
    | .found => .ok (some (some sp))
    | .illegal => .ok (some none)
    | .next => dnScan domain mem (sp + n.toNat + 1)
  else .ok none
termination_by 0x4000 - sp

/-- `dn_find`: the offset of the domain in the message, or `none` for -1. -/
def dnFind (domain mem : List UInt8) : List Nat → Except PackFault (Option Nat)
  | [] => .ok none
  | sp :: names => do
    match ← dnScan domain mem sp with
    | some result => .ok result
    | none => dnFind domain mem names

/-- The `dnptrs` array after the message: the offsets of the names, and the index of `lastdnptr`. -/
structure Dnptrs where
  names : List Nat
  last : Option Nat
  deriving DecidableEq, Repr

/-- `cpp < lastdnptr - 1`, with `cpp` at the end of the list. -/
def Dnptrs.hasRoom (table : Dnptrs) : Bool :=
  table.last.any fun last => table.names.length + 2 < last

/-- The check that the domain is legal, with the length `l` so far. -/
def legalLoop (srcp : List UInt8) (l : Nat) : Except PackFault Bool :=
  match srcp with
  | [] => .error .read
  | n :: rest =>
    if n.toNat ≥ 64 then .ok false
    else if l + (n.toNat + 1) > nsMaxcdname then .ok false
    else if n = 0 then .ok true
    else legalLoop (rest.drop n.toNat) (l + (n.toNat + 1))
termination_by srcp.length
decreasing_by
  simp only [List.length_cons, List.length_drop]
  omega

/-- `dn_find` on the rest of the domain, where there is a table; `mem` is the message. -/
def packFind (dnptrs : Option Dnptrs) (srcp mem : List UInt8) : Except PackFault (Option Nat) :=
  match dnptrs with
  | some table => if srcp.head? ≠ some 0 then dnFind srcp mem table.names else .ok none
  | none => .ok none

/-- The entry that is saved the first time the rest of the domain is not found, if there is room. -/
def packSave (dnptrs : Option Dnptrs) (n : UInt8) (offset : Nat) (saved : List Nat) : List Nat :=
  match dnptrs with
  | some table => if n ≠ 0 ∧ table.hasRoom ∧ offset < 0x4000 ∧ saved = [] then [offset] else saved
  | none => saved

/-- The loop that writes the name: what has been written, or `none` for -1, and the new entry. -/
def packLoop (msg : List UInt8) (dstsiz : Int) (dnptrs : Option Dnptrs) (srcp written : List UInt8)
    (saved : List Nat) : Except PackFault (Option (List UInt8 × List Nat)) := do
  match srcp with
  | [] => .error .read
  | n :: rest =>
    match ← packFind dnptrs (n :: rest) (msg ++ written) with
    | some l =>
      if dstsiz - written.length ≤ 1 then .ok none
      else .ok (some (written ++ [UInt8.ofNat (l >>> 8) ||| 0xc0, UInt8.ofNat (l % 256)], saved))
    | none =>
      let saved := packSave dnptrs n (msg.length + written.length) saved
      if n.toNat ≥ 64 then .ok none
      else if n.toNat + 1 > dstsiz - written.length then .ok none
      else if rest.length < n.toNat then .error .read
      else
        let written := written ++ n :: rest.take n.toNat
        if n = 0 then .ok (if (written.length : Int) > dstsiz then none else some (written, saved))
        else packLoop msg dstsiz dnptrs (rest.drop n.toNat) written saved
termination_by srcp.length
decreasing_by
  simp only [List.length_cons, List.length_drop]
  omega

/-- `___ns_name_pack` at the end of a message: what it appends, or `none` for -1, and the table. -/
def nsNamePack (msg src : List UInt8) (dstsiz : Int) (dnptrs : Option Dnptrs) :
    Except PackFault (Option (List UInt8) × Option Dnptrs) := do
  if ← legalLoop src 0 then
    match ← packLoop msg dstsiz dnptrs src [] [] with
    | some (written, saved) =>
      .ok (some written, dnptrs.map fun table => { table with names := table.names ++ saved })
    | none => .ok (none, dnptrs)
  else .ok (none, dnptrs)

/-! ## Names in the message -/

/-- A name as it is packed: `Packed mem start o labels e` says that a field from `start` to `e` goes
on at `o` with the given labels, some of them behind a pointer to a name that ends before
`start`. -/
inductive Packed (mem : List UInt8) : Nat → Nat → List (List UInt8) → Nat → Prop
  | root {start o : Nat} (hoctet : mem[o]? = some 0) : Packed mem start o [] (o + 1)
  | label {start o e : Nat} {n : UInt8} {label : List UInt8} {labels : List (List UInt8)}
      (hoctet : mem[o]? = some n) (hpos : 0 < n.toNat) (hmax : n.toNat ≤ dnsLabelMax)
      (hlabel : (mem.drop (o + 1)).take n.toNat = label) (hlength : label.length = n.toNat)
      (hrest : Packed mem start (o + 1 + n.toNat) labels e) : Packed mem start o (label :: labels) e
  | pointer {start o e t : Nat} {hi lo : UInt8} {label : List UInt8} {labels : List (List UInt8)}
      (hhi : mem[o]? = some hi) (hptr : 192 ≤ hi.toNat) (hlo : mem[o + 1]? = some lo)
      (htarget : indirection hi lo = t) (hback : e ≤ start)
      (hrest : Packed mem t t (label :: labels) e) : Packed mem start o (label :: labels) (o + 2)

variable {mem : List UInt8} {start o e : Nat} {labels : List (List UInt8)} {i : Nat} {b n : UInt8}

theorem getElem?_append_of_eq (h : mem[i]? = some b) (more : List UInt8) :
    (mem ++ more)[i]? = some b := by
  rw [getElem?_append_left (List.getElem?_eq_some_iff.1 h).1, h]

section

variable (h : Packed mem start o labels e)
include h

theorem Packed.append (more : List UInt8) :
    Packed (mem ++ more) start o labels e := by
  induction h with
  | root hoctet => exact .root (getElem?_append_of_eq hoctet more)
  | label hoctet hpos hmax hlabel hlength hrest ih =>
    refine .label (getElem?_append_of_eq hoctet more) hpos hmax ?_ hlength ih
    have hlt : _ + 1 ≤ mem.length := (List.getElem?_eq_some_iff.1 hoctet).1
    rw [← hlabel, length_take] at hlength
    rw [drop_append_of_le_length hlt, take_append_of_le_length (by omega), hlabel]
  | pointer hhi hptr hlo htarget hback hrest ih =>
    exact .pointer (getElem?_append_of_eq hhi more) hptr
      (getElem?_append_of_eq hlo more) htarget hback ih

theorem Packed.weaken {start' : Nat} (hle : start ≤ start') :
    Packed mem start' o labels e := by
  induction h with
  | root hoctet => exact .root hoctet
  | label hoctet hpos hmax hlabel hlength hrest ih =>
    exact .label hoctet hpos hmax hlabel hlength (ih hle)
  | pointer hhi hptr hlo htarget hback hrest ih =>
    exact .pointer hhi hptr hlo htarget (le_trans hback hle) hrest

theorem Packed.bounds : o < e ∧ e ≤ mem.length := by
  induction h with
  | root hoctet => exact ⟨Nat.lt_succ_self _, (List.getElem?_eq_some_iff.1 hoctet).1⟩
  | label hoctet hpos hmax hlabel hlength hrest ih => exact ⟨by omega, ih.2⟩
  | pointer hhi hptr hlo htarget hback hrest ih =>
    exact ⟨by omega, (List.getElem?_eq_some_iff.1 hlo).1⟩

end

/-- A packed name is a name of the decoder, and the bytes that the decoder counts on its way to the
last pointer are fewer than those of the field and of the message before it. -/
theorem Packed.nameAt (h : Packed mem start o labels e) :
    ∃ looked, NameAt mem o labels e looked ∧ (looked = 0 ∨ looked < (e - o) + start) := by
  induction h with
  | root hoctet => exact ⟨0, .root hoctet, .inl rfl⟩
  | @label start o e n label labels hoctet hpos hmax hlabel hlength hrest ih =>
    obtain ⟨looked, hname, hlooked⟩ := ih
    have hbounds := hrest.bounds
    refine ⟨if looked = 0 then 0 else n.toNat + 1 + looked,
      hlabel ▸ .label hoctet hpos hmax hname, ?_⟩
    by_cases hzero : looked = 0
    · rw [if_pos hzero]
      exact .inl rfl
    · rw [if_neg hzero]
      exact .inr (by omega)
  | @pointer start o e t hi lo label labels hhi hptr hlo htarget hback hrest ih =>
    obtain ⟨looked, hname, hlooked⟩ := ih
    have hbounds := hrest.bounds
    rw [← htarget] at hname
    exact ⟨looked + 2, .pointer hhi hptr hlo hname, .inr (by omega)⟩

/-- **The decoder on a packed name**: only the size of the buffer can make it fail. -/
theorem Packed.unpack (h : Packed mem o o labels e) {dstsiz : Nat} (hdst : 0 < dstsiz) :
    nsNameUnpack mem o dstsiz =
      some (if wireLength labels ≤ dstsiz then some (e - o, wireLabels labels ++ [0])
        else none) := by
  obtain ⟨looked, hname, hlooked⟩ := h.nameAt
  have hbounds := h.bounds
  have hcount : looked = 0 ∨ 0 + looked < mem.length := by omega
  rw [nsNameUnpack, if_neg (not_le.2 hname.lt_length),
    nsNameUnpackLoop_eq hname [] none 0 (fun _ => le_refl o) hdst]
  by_cases hfits : wireLength labels ≤ dstsiz
  · rw [if_pos hfits, if_pos ⟨by rwa [length_nil, zero_add], hcount⟩]
    rfl
  · rw [if_neg hfits, if_neg fun h => hfits (by rw [length_nil, zero_add] at h; exact h.1)]

/-! ## The search -/

def SameName (labels labels' : List (List UInt8)) : Prop :=
  labels.map (List.map mklower) = labels'.map (List.map mklower)

instance (labels labels' : List (List UInt8)) : Decidable (SameName labels labels') :=
  inferInstanceAs (Decidable (_ = _))

theorem matchLabel_eq (label dn : List UInt8) (cp : Nat) {domain : List UInt8}
    (hlabel : (mem.drop cp).take label.length = label) (hdomain : domain.length = label.length) :
    matchLabel mem label.length (domain ++ dn) cp =
      .ok (if domain.map mklower = label.map mklower then some dn else none) := by
  induction label generalizing domain cp with
  | nil =>
    obtain rfl := length_eq_zero_iff.1 hdomain
    rfl
  | cons c label ih =>
    obtain ⟨d, domain, rfl⟩ := exists_cons_of_length_pos (by rw [hdomain]; simp)
    have hcp : mem[cp]? = some c := by
      have := congrArg head? hlabel
      rwa [head?_take, head?_drop] at this
    have hrest : (mem.drop (cp + 1)).take label.length = label := by
      obtain ⟨hlt, hget⟩ := List.getElem?_eq_some_iff.1 hcp
      rw [drop_eq_getElem_cons hlt, length_cons] at hlabel
      exact (List.cons.inj hlabel).2
    simp only [length_cons, cons_append, matchLabel, hcp, map_cons, List.cons.injEq]
    by_cases hsame : mklower d = mklower c
    · rw [ih (cp + 1) hrest (by simpa using hdomain)]
      simp [hsame]
    · rw [if_pos hsame, if_neg (fun h => hsame h.1)]

theorem byteAt_ok (h : mem[i]? = some b) : byteAt mem i = .ok b := by
  rw [byteAt, h]

theorem octet_ne_zero (h : 0 < n.toNat) : n ≠ 0 := by
  rintro rfl
  exact absurd h (by decide)

theorem land_label (hmax : n.toNat ≤ dnsLabelMax) : n &&& 0xc0 = 0 :=
  (mask_eq_zero_iff n).2 hmax

theorem land_pointer (hptr : 192 ≤ n.toNat) : n &&& 0xc0 ≠ 0 ∧ n &&& 0xc0 = 0xc0 := by
  have h : n &&& 0xc0 = 0xc0 := (mask_eq_pointer_iff n).2 hptr
  exact ⟨by rw [h]; decide, h⟩

/-- The domain at a label: its length octet and its bytes, and the rest. -/
theorem sameName_cons {l l' : List UInt8} {ls ls' : List (List UInt8)} :
    SameName (l :: ls) (l' :: ls') ↔ l.map mklower = l'.map mklower ∧ SameName ls ls' := by
  rw [SameName, map_cons, map_cons, List.cons.injEq, SameName]

/-- The domain that is looked for, a name that is not the root. -/
def domainOf (labels : List (List UInt8)) (rest : List UInt8) : List UInt8 :=
  wireLabels labels ++ 0 :: rest

theorem domainOf_cons (l : List UInt8) (ls : List (List UInt8)) (rest : List UInt8) :
    domainOf (l :: ls) rest = UInt8.ofNat l.length :: (l ++ domainOf ls rest) := by
  simp [domainOf, wireLabels_cons]

theorem domainOf_head (ls : List (List UInt8))
    (hls : ∀ l ∈ ls, 0 < l.length ∧ l.length ≤ dnsLabelMax)
    (rest : List UInt8) : ∃ d tail, domainOf ls rest = d :: tail ∧ (d = 0 ↔ ls = []) := by
  cases ls with
  | nil => exact ⟨0, rest, rfl, by simp⟩
  | cons l ls =>
    refine ⟨_, _, domainOf_cons l ls rest, ?_⟩
    have hl := hls l mem_cons_self
    rw [dnsLabelMax] at hl
    rw [← UInt8.toNat_inj, UInt8.toNat_ofNat']
    simp only [UInt8.toNat_zero, reduceCtorEq, iff_false]
    omega

/-- The octet at a packed name is zero where it is the root; a pointer never leads to the root. -/
theorem Packed.head (h : Packed mem start o labels e) :
    ∃ c, mem[o]? = some c ∧ (c = 0 ↔ labels = []) := by
  cases h with
  | root hoctet => exact ⟨0, hoctet, by simp⟩
  | label hoctet hpos => exact ⟨_, hoctet, by simp [octet_ne_zero hpos]⟩
  | pointer hhi hptr => exact ⟨_, hhi, by simp [octet_ne_zero (lt_of_lt_of_le (by decide) hptr)]⟩

theorem ofNat_length_eq_iff {d : List UInt8} (hd : d.length ≤ dnsLabelMax) (n : UInt8) :
    n = UInt8.ofNat d.length ↔ n.toNat = d.length := by
  rw [dnsLabelMax] at hd
  rw [← UInt8.toNat_inj, UInt8.toNat_ofNat', Nat.mod_eq_of_lt (by omega)]

/-- The comparison with a packed name decides whether it is the domain, in few enough turns. -/
theorem dnCompare_packed (h : Packed mem start o labels e) (d : List UInt8) (ds : List (List UInt8))
    (hds : ∀ l ∈ d :: ds, 0 < l.length ∧ l.length ≤ dnsLabelMax) (rest : List UInt8) {fuel : Nat}
    (hfuel : (e - o) + start ≤ fuel) :
    dnCompare mem fuel (domainOf (d :: ds) rest) o =
      .ok (if SameName (d :: ds) labels then .found else .next) := by
  induction h generalizing d ds fuel with
  | @root start o hoctet =>
    obtain ⟨fuel, rfl⟩ : ∃ k, fuel = k + 1 := ⟨fuel - 1, by omega⟩
    rw [dnCompare, byteAt_ok hoctet, ok_bind, if_pos rfl, if_neg (by simp [SameName])]
  | @label start o e n label labels hoctet hpos hmax hlabel hlength hrest ih =>
    obtain ⟨fuel, rfl⟩ : ∃ k, fuel = k + 1 := ⟨fuel - 1, by have := hrest.bounds; omega⟩
    rw [domainOf_cons, dnCompare, byteAt_ok hoctet, ok_bind, if_neg (octet_ne_zero hpos),
      if_pos (land_label hmax)]
    dsimp only
    have hd := hds d mem_cons_self
    by_cases hn : n = UInt8.ofNat d.length
    · have hdlength : d.length = label.length := by
        rw [hlength, (ofNat_length_eq_iff hd.2 n).1 hn]
      have hmatch := matchLabel_eq label (domainOf ds rest) (o + 1) (hlength ▸ hlabel) hdlength
      rw [hlength] at hmatch
      rw [if_neg (not_not.2 hn), hmatch, ok_bind]
      by_cases hsame : d.map mklower = label.map mklower
      · rw [if_pos hsame]
        -- the labels so far are the same: the rest of the domain decides
        have hdsLength : ∀ l ∈ ds, 0 < l.length ∧ l.length ≤ dnsLabelMax :=
          fun l hl => hds l (mem_cons_of_mem _ hl)
        have hiff : SameName (d :: ds) (label :: labels) ↔ SameName ds labels :=
          sameName_cons.trans (and_iff_right hsame)
        obtain ⟨octet, tail, hdomain, hoctetZero⟩ := domainOf_head ds hdsLength rest
        obtain ⟨c, hc, hcZero⟩ := hrest.head
        simp only [hdomain, hiff]
        cases ds with
        | nil =>
          rw [if_neg (not_not.2 (hoctetZero.2 rfl)), byteAt_ok hc]
          simp [hcZero, SameName]
        | cons d' ds =>
          rw [if_pos (mt hoctetZero.1 (cons_ne_nil _ _)), ← hdomain]
          exact ih d' ds hdsLength (by have := hrest.bounds; omega)
      · rw [if_neg hsame, if_neg (fun h => hsame (sameName_cons.1 h).1)]
    · rw [if_pos hn, if_neg]
      intro hsame
      have hlengths := congrArg List.length (sameName_cons.1 hsame).1
      rw [length_map, length_map, hlength] at hlengths
      exact hn ((ofNat_length_eq_iff hd.2 n).2 hlengths.symm)
  | @pointer start o e t hi lo label labels hhi hptr hlo htarget hback hrest ih =>
    obtain ⟨fuel, rfl⟩ : ∃ k, fuel = k + 1 := ⟨fuel - 1, by omega⟩
    rw [domainOf_cons, dnCompare, byteAt_ok hhi, ok_bind, if_neg (octet_ne_zero (by omega)),
      if_neg (land_pointer hptr).1, if_pos (land_pointer hptr).2, byteAt_ok hlo, ok_bind, htarget,
      ← domainOf_cons]
    have := hrest.bounds
    exact ih d ds hds (by omega)

/-- A name at `t` that a pointer may lead to, the last of its bytes before `limit`. -/
def Listed (mem : List UInt8) (limit t : Nat) : Prop :=
  ∃ labels e, Packed mem t t labels e ∧ e ≤ limit

/-- What a search can find: a name with the labels of the domain, at an offset that fits a
pointer. -/
def Finds (mem : List UInt8) (limit : Nat) (domain : List (List UInt8)) (off : Nat) : Prop :=
  off < 0x4000 ∧ ∃ labels e, Packed mem off off labels e ∧ e ≤ limit ∧ SameName domain labels

section Search

variable {d : List UInt8} {ds : List (List UInt8)} {limit : Nat}

theorem compareFuel_ge (mem dn : List UInt8) : mem.length ≤ compareFuel mem dn := by
  calc mem.length ≤ 1 * (mem.length + 1) := by omega
    _ ≤ (dn.length + 1) * (mem.length + 1) := Nat.mul_le_mul_right _ (by omega)

theorem dnScan_packed (h : Packed mem start o labels e) (hstart : start ≤ o) (hlimit : e ≤ limit)
    (hds : ∀ l ∈ d :: ds, 0 < l.length ∧ l.length ≤ dnsLabelMax) (rest : List UInt8) :
    ∃ r, dnScan (domainOf (d :: ds) rest) mem o = .ok r ∧
      ∀ x, r = some x → ∃ off, x = some off ∧ Finds mem limit (d :: ds) off := by
  induction h with
  | root hoctet =>
    refine ⟨none, ?_, fun x hx => (nomatch hx)⟩
    rw [dnScan, byteAt_ok hoctet, ok_bind, if_neg (fun h => h.1 rfl)]
  | @label start o e n label labels hoctet hpos hmax hlabel hlength hrest ih =>
    rw [dnScan, byteAt_ok hoctet, ok_bind]
    by_cases hoffset : o < 0x4000
    · have hfield : Packed mem o o (label :: labels) e :=
        (Packed.label hoctet hpos hmax hlabel hlength hrest).weaken hstart
      have hbounds := hfield.bounds
      have hfuel : (e - o) + o ≤ compareFuel mem (domainOf (d :: ds) rest) :=
        le_trans (by omega) (compareFuel_ge mem _)
      rw [if_pos ⟨octet_ne_zero hpos, land_label hmax, hoffset⟩,
        dnCompare_packed hfield d ds hds rest hfuel]
      by_cases hsame : SameName (d :: ds) (label :: labels)
      · rw [if_pos hsame]
        refine ⟨_, rfl,
          fun x hx => ⟨o, (Option.some.inj hx).symm, hoffset, _, e, hfield, hlimit, hsame⟩⟩
      · rw [if_neg hsame]
        have hnext : o + n.toNat + 1 = o + 1 + n.toNat := by omega
        rw [hnext]
        exact ih (by omega) hlimit
    · rw [if_neg (fun h => hoffset h.2.2)]
      exact ⟨none, rfl, fun x hx => (nomatch hx)⟩
  | pointer hhi hptr hlo htarget hback hrest ih =>
    refine ⟨none, ?_, fun x hx => (nomatch hx)⟩
    rw [dnScan, byteAt_ok hhi, ok_bind, if_neg (fun h => (land_pointer hptr).1 h.2.1)]

theorem dnFind_listed (names : List Nat) (hnames : ∀ t ∈ names, Listed mem limit t)
    (hds : ∀ l ∈ d :: ds, 0 < l.length ∧ l.length ≤ dnsLabelMax) (rest : List UInt8) :
    ∃ r, dnFind (domainOf (d :: ds) rest) mem names = .ok r ∧
      ∀ off, r = some off → Finds mem limit (d :: ds) off := by
  induction names with
  | nil => exact ⟨none, rfl, fun off h => (nomatch h)⟩
  | cons t names ih =>
    obtain ⟨labels, e, hpacked, he⟩ := hnames t mem_cons_self
    obtain ⟨r, hscan, hfound⟩ := dnScan_packed hpacked (le_refl t) he hds rest
    rw [dnFind, hscan]
    cases r with
    | none => exact ih fun t ht => hnames t (mem_cons_of_mem _ ht)
    | some x =>
      obtain ⟨off, rfl, hoff⟩ := hfound x rfl
      exact ⟨some off, rfl, fun off' h => Option.some.inj h ▸ hoff⟩

theorem packFind_listed {dnptrs : Option Dnptrs}
    (hnames : ∀ table, dnptrs = some table → ∀ t ∈ table.names, Listed mem limit t)
    (ls : List (List UInt8)) (hls : ∀ l ∈ ls, 0 < l.length ∧ l.length ≤ dnsLabelMax)
    (rest : List UInt8) : ∃ r, packFind dnptrs (domainOf ls rest) mem = .ok r ∧
      ∀ off, r = some off → ls ≠ [] ∧ Finds mem limit ls off := by
  cases dnptrs with
  | none => exact ⟨none, rfl, fun off h => (nomatch h)⟩
  | some table =>
    cases ls with
    | nil => exact ⟨none, rfl, fun off h => (nomatch h)⟩
    | cons d ds =>
      obtain ⟨octet, tail, hdomain, hzero⟩ := domainOf_head (d :: ds) hls rest
      have hoctet : (domainOf (d :: ds) rest).head? ≠ some 0 := by
        rw [hdomain]
        exact fun h => absurd (hzero.1 (Option.some.inj h)) (cons_ne_nil _ _)
      obtain ⟨r, hfind, hfound⟩ := dnFind_listed table.names (hnames table rfl) hls rest
      refine ⟨r, ?_, fun off h => ⟨cons_ne_nil _ _, hfound off h⟩⟩
      rw [packFind, if_pos hoctet, hfind]

end Search

/-! ## The pointer -/

theorem pointer_octet : ∀ q < 64, 192 ≤ (UInt8.ofNat q ||| 0xc0).toNat ∧
    (UInt8.ofNat q ||| 0xc0).toNat &&& 0x3f = q := by
  decide

theorem indirection_offset {l : Nat} (h : l < 0x4000) :
    192 ≤ (UInt8.ofNat (l >>> 8) ||| 0xc0).toNat ∧
      indirection (UInt8.ofNat (l >>> 8) ||| 0xc0) (UInt8.ofNat (l % 256)) = l := by
  have hq : l >>> 8 < 64 := by rw [Nat.shiftRight_eq_div_pow]; omega
  obtain ⟨hptr, hhi⟩ := pointer_octet _ hq
  have hlow : l % 256 < 2 ^ 8 := Nat.mod_lt _ (by decide)
  refine ⟨hptr, ?_⟩
  rw [indirection, hhi, UInt8.toNat_ofNat', Nat.mod_eq_of_lt hlow,
    ← Nat.shiftLeft_add_eq_or_of_lt hlow]
  omega

end SafeLibc.Resolv.NsName
