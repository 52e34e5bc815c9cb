import Citron.Fs.Scan

/-!
# Names in a directory

Which entry of a directory a name stands for, by its short name or by its long one, and when `find_file` returns it.
The loop compares one part of a long name, that of the LFN entry of the same round; and it asks of an entry neither
whether it is deleted nor whether it is a label, nor after an LFN entry whether the directory ends.

* `longName`, `named`   the first live entry that bears a name;
* `roundEnd`, `accepts` the rounds of the loop over the records, and its comparisons;
* `LFNEntry.Spells`     the names that `lfn_to_string` reads off one LFN entry;
* `finds_iff`           when the two agree.
-/

namespace Citron.Fs

/-! ## what a name stands for -/

/-- the UTF-16 of a name -/
def utf16 (name : List Char) : List Nat :=
  name.flatMap fun ch =>
    if ch.toNat < 0x10000 then [ch.toNat]
    else [0xD800 + (ch.toNat - 0x10000) / 0x400, 0xDC00 + (ch.toNat - 0x10000) % 0x400]

/-- the 13 units of an LFN entry -/
def LFNEntry.units (lfn : LFNEntry) : List Nat := lfn.name1 ++ lfn.name2 ++ lfn.name3

/-! ### what `lfn_to_string` makes of one LFN entry -/

/-- the units that `lfn_to_string` drops -/
def isPadding (u : Nat) : Bool := u == 0xffff || u == 0 || isWhitespace (u % 256)

/-- The LFN entry has the whole name, in characters that `lfn_to_string` keeps as they are, and nothing after it but
what it drops. -/
structure LFNEntry.Spells (lfn : LFNEntry) (name : List Char) : Prop where
  length : name.length ≤ 13
  kept : ∀ ch ∈ name, ch.toNat < 256 ∧ isWhitespace ch.toNat = false
  rest : ∀ u ∈ lfn.units.drop name.length, isPadding u = true

instance (lfn : LFNEntry) (name : List Char) : Decidable (lfn.Spells name) :=
  decidable_of_iff (name.length ≤ 13 ∧ (name.all fun ch => ch.toNat < 256 && !isWhitespace ch.toNat) = true ∧
      (lfn.units.drop name.length).all isPadding = true)
    ⟨fun h => ⟨h.1, by simpa using h.2.1, List.all_eq_true.mp h.2.2⟩,
      fun h => ⟨h.length, by simpa using h.kept, List.all_eq_true.mpr h.rest⟩⟩

theorem lfnChars_eq (us : List Nat) :
    lfnChars us = (us.filter fun u => !isPadding u).map fun u => Char.ofNat (u % 256) := by
  induction us with
  | nil => rfl
  | cons u us ih =>
    have hcons : lfnChars (u :: us) = (if isPadding u = true then [] else [Char.ofNat (u % 256)]) ++ lfnChars us := by
      unfold lfnChars isPadding
      rw [List.filterMap_cons]
      by_cases h1 : u = 0xffff
      · simp [h1]
      · by_cases h2 : u = 0
        · simp [h2]
        · cases isWhitespace (u % 256) <;> simp [h1, h2]
    rw [hcons, ih, List.filter_cons]
    cases isPadding u <;> simp

theorem lfnToString_eq (lfn : LFNEntry) : lfnToString lfn = lfnChars lfn.units := by
  unfold lfnToString LFNEntry.units lfnChars
  simp only [List.filterMap_append]

theorem length_lfnChars_le (us : List Nat) : (lfnChars us).length ≤ us.length :=
  List.length_filterMap_le ..

theorem lfnChars_eq_nil_iff {us : List Nat} : lfnChars us = [] ↔ ∀ u ∈ us, isPadding u = true := by
  rw [lfnChars_eq, List.map_eq_nil_iff, List.filter_eq_nil_iff]
  simp

/-- what is left are characters below 256 and no blanks -/
theorem mem_lfnChars {us : List Nat} {ch : Char} (h : ch ∈ lfnChars us) :
    ch.toNat < 256 ∧ isWhitespace ch.toNat = false := by
  rw [lfnChars_eq] at h
  obtain ⟨u, hu, rfl⟩ := List.mem_map.mp h
  have hkept := (List.mem_filter.mp hu).2
  have hlt : u % 256 < 256 := Nat.mod_lt _ (by decide)
  have hval : (Char.ofNat (u % 256)).toNat = u % 256 := by
    unfold Char.ofNat
    rw [dif_pos (.inl (by omega))]
    rfl
  rw [hval]
  refine ⟨hlt, ?_⟩
  unfold isPadding at hkept
  simp only [Bool.not_or, Bool.and_eq_true, Bool.not_eq_true'] at hkept
  exact hkept.2

/-- characters that are kept are spelt as they are -/
theorem lfnChars_toNat {name : List Char} (hkept : ∀ ch ∈ name, ch.toNat < 256 ∧ isWhitespace ch.toNat = false)
    (hzero : ∀ ch ∈ name, ch.toNat ≠ 0) : lfnChars (name.map Char.toNat) = name := by
  have hpad : ∀ ch ∈ name, isPadding ch.toNat = false := by
    intro ch hch
    obtain ⟨hlt, hblank⟩ := hkept ch hch
    have h0 := hzero ch hch
    have h1 : ch.toNat ≠ 0xffff := by omega
    simp [isPadding, h0, h1, Nat.mod_eq_of_lt hlt, hblank]
  rw [lfnChars_eq, List.filter_map, List.map_map]
  rw [List.filter_eq_self.mpr fun ch hch => by simp [hpad ch hch]]
  refine (List.map_congr_left fun ch hch => ?_).trans (List.map_id name)
  show Char.ofNat (ch.toNat % 256) = ch
  rw [Nat.mod_eq_of_lt (hkept ch hch).1, Char.ofNat_toNat]

theorem utf16_eq_map {name : List Char} (h : ∀ ch ∈ name, ch.toNat < 256) : utf16 name = name.map Char.toNat := by
  induction name with
  | nil => rfl
  | cons ch name ih =>
    have hch : ch.toNat < 0x10000 := Nat.lt_trans (h ch List.mem_cons_self) (by decide)
    unfold utf16 at ih ⊢
    rw [List.flatMap_cons, if_pos hch, ih fun c hc => h c (List.mem_cons_of_mem _ hc)]
    rfl

/-- **What one LFN entry spells**: `lfn_to_string` of the nearest entry of a run gives the name that the run spells
exactly if this entry has all of it, in characters below 256 that are no blanks. -/
theorem lfnToString_eq_iff {lfn : LFNEntry} {more : List Nat} {name : List Char} (hlen : lfn.units.length = 13)
    (h : (lfn.units ++ more).takeWhile (· ≠ 0) = utf16 name) : lfnToString lfn = name ↔ lfn.Spells name := by
  -- a name of kept characters that fits is at the front of the entry
  have hsplit : name.length ≤ 13 → (∀ ch ∈ name, ch.toNat < 256 ∧ isWhitespace ch.toNat = false) →
      lfnToString lfn = name ++ lfnChars (lfn.units.drop name.length) := by
    intro hle hkept
    have hutf := utf16_eq_map fun ch hch => (hkept ch hch).1
    rw [hutf] at h
    have hzero : ∀ ch ∈ name, ch.toNat ≠ 0 := by
      intro ch hch
      have hmem : ch.toNat ∈ (lfn.units ++ more).takeWhile (· ≠ 0) := h ▸ List.mem_map_of_mem hch
      simpa using List.mem_takeWhile_imp hmem
    have hpre : name.map Char.toNat <+: lfn.units := by
      refine List.prefix_of_prefix_length_le (h ▸ List.takeWhile_prefix _) (List.prefix_append lfn.units more) ?_
      rw [List.length_map, hlen]
      exact hle
    obtain ⟨rest, hrest⟩ := hpre
    rw [lfnToString_eq, ← hrest, show (name.map Char.toNat ++ rest).drop name.length = rest by
      rw [← List.length_map (f := Char.toNat), List.drop_left]]
    unfold lfnChars
    rw [List.filterMap_append]
    exact congrArg (· ++ _) (lfnChars_toNat hkept hzero)
  constructor
  · intro he
    have hle : name.length ≤ 13 := by
      rw [← he, ← hlen, lfnToString_eq]
      exact length_lfnChars_le _
    have hkept : ∀ ch ∈ name, ch.toNat < 256 ∧ isWhitespace ch.toNat = false := by
      intro ch hch
      rw [← he, lfnToString_eq] at hch
      exact mem_lfnChars hch
    refine ⟨hle, hkept, lfnChars_eq_nil_iff.mp ?_⟩
    have hs := (hsplit hle hkept).symm.trans he
    exact List.append_right_eq_self.mp hs
  · intro hs
    rw [hsplit hs.length hs.kept, lfnChars_eq_nil_iff.mpr hs.rest, List.append_nil]

theorem LFNEntry.length_units (r : List UInt8) : (LFNEntry.ofBytes r).units.length = 13 := by
  simp [LFNEntry.units, LFNEntry.ofBytes, u16s]

/-! ### runs of LFN entries -/

def isLfn (r : List UInt8) : Bool := r.getD 11 0 == 0x0F

/-- The LFN entries before an entry, the nearest first: they are numbered from `k` on, and the last part of the name is
marked.  The units of a complete run. -/
def lfnRun : Nat → List (List UInt8) → Option (List Nat)
  | _, [] => none
  | k, r :: rs =>
    if isLfn r ∧ k < 0x40 then
      if (r.getD 0 0).toNat = 0x40 + k then some (LFNEntry.ofBytes r).units
      else if (r.getD 0 0).toNat = k then (lfnRun (k + 1) rs).map ((LFNEntry.ofBytes r).units ++ ·)
      else none
    else none

/-- the long name of the `i`-th entry, up to its zero -/
def longName (rs : List (List UInt8)) (i : Nat) : Option (List Nat) :=
  (lfnRun 1 (rs.take i).reverse).map fun units => units.takeWhile (· ≠ 0)

/-- the `i`-th record is a file or a directory, before the end mark -/
def isEntry (rs : List (List UInt8)) (i : Nat) : Bool :=
  decide (i < (beforeEnd rs).length) && (DirEntry.ofBytes (rs.getD i [])).live

section
variable (toUppercase : List Char → List Char) (name : List Char) (rs : List (List UInt8))

/-- its short name is the name in upper case, or its long name is the name -/
def goesBy (i : Nat) : Bool :=
  (DirEntry.ofBytes (rs.getD i [])).shortName == toUppercase name || longName rs i == some (utf16 name)

def bears (i : Nat) : Bool := isEntry rs i && goesBy toUppercase name rs i

/-- the first that bears the name -/
def named : Option Nat := (List.range (beforeEnd rs).length).find? (bears toUppercase name rs)

/-! ## what the loop compares -/

end

/-- Whether the loop, when it comes so far, ends a round with the `i`-th record; the LFN entry of the round. -/
def roundEnd : List (List UInt8) → Nat → Option (Option (List UInt8))
  | [], _ => none
  | r :: rs, i =>
    if r.getD 0 0 = 0 then none
    else if r.getD 11 0 = 0x0F then
      match rs, i with
      | _ :: _, 1 => some (some r)
      | _ :: rs, i + 2 => roundEnd rs i
      | _, _ => none
    else
      match i with
      | 0 => some none
      | i + 1 => roundEnd rs i

/-- the comparisons of a round -/
def comparison (toUppercase : List Char → List Char) (name : List Char) (lfn : Option (List UInt8)) (r : List UInt8) :
    Bool :=
  lfn.any (fun l => lfnToString (LFNEntry.ofBytes l) == name) || dirEntryName (DirEntry.ofBytes r) == toUppercase name

def accepts (toUppercase : List Char → List Char) (name : List Char) (rs : List (List UInt8)) (i : Nat) : Bool :=
  (roundEnd rs i).any fun lfn => comparison toUppercase name lfn (rs.getD i [])

/-! ## first indices -/

/-- the first index at which a test succeeds -/
def First (p : Nat → Bool) : Option Nat → Prop
  | none => ∀ i, p i = false
  | some n => p n = true ∧ ∀ i < n, p i = false

theorem First.shift {p : Nat → Bool} {a : Option Nat} (k : Nat) (hlow : ∀ i < k, p i = false)
    (h : First (fun i => p (i + k)) a) : First p (a.map (· + k)) := by
  have hge : ∀ i, k ≤ i → i - k + k = i := fun i hi => Nat.sub_add_cancel hi
  cases a with
  | none =>
    intro i
    by_cases hi : i < k
    · exact hlow i hi
    · rw [← hge i (Nat.le_of_not_lt hi)]
      exact h (i - k)
  | some n =>
    refine ⟨h.1, fun i hi => ?_⟩
    by_cases hk : i < k
    · exact hlow i hk
    · have hlt : i - k < n := by
        have hi : i < n + k := hi
        omega
      rw [← hge i (Nat.le_of_not_lt hk)]
      exact h.2 (i - k) hlt

/-- two tests have the same first index exactly if the one fails before the first index of the other and succeeds
there -/
theorem first_eq_iff {p q : Nat → Bool} {a b : Option Nat} (ha : First p a) (hb : First q b) :
    a = b ↔ (∀ i, (∀ k ∈ b, i < k) → p i = false) ∧ ∀ k ∈ b, p k = true := by
  constructor
  · rintro rfl
    cases a with
    | none => exact ⟨fun i _ => ha i, fun k hk => absurd hk (by simp)⟩
    | some n => exact ⟨fun i hi => ha.2 i (hi n rfl), fun k hk => Option.some.inj hk ▸ ha.1⟩
  · intro ⟨hbefore, hat⟩
    cases a with
    | none =>
      cases b with
      | none => rfl
      | some m => exact absurd (hat m rfl) (by simp [ha m])
    | some n =>
      cases b with
      | none => exact absurd ha.1 (by simp [hbefore n (fun k hk => absurd hk (by simp))])
      | some m =>
        rcases Nat.lt_trichotomy n m with hlt | rfl | hgt
        · exact absurd ha.1 (by simp [hbefore n fun k hk => Option.some.inj hk ▸ hlt])
        · rfl
        · exact absurd (hat m rfl) (by simp [ha.2 m hgt])

section
variable {toUppercase : List Char → List Char} {name : List Char} {rs : List (List UInt8)}

theorem isEntry_lt {i : Nat} (h : isEntry rs i = true) : i < (beforeEnd rs).length :=
  of_decide_eq_true (Bool.and_eq_true_iff.mp h).1

theorem named_first : First (bears toUppercase name rs) (named toUppercase name rs) := by
  have hlt : ∀ i, bears toUppercase name rs i = true → i < (beforeEnd rs).length := by
    intro i h
    exact isEntry_lt (Bool.and_eq_true_iff.mp h).1
  unfold named
  cases hfind : (List.range (beforeEnd rs).length).find? (bears toUppercase name rs) with
  | none =>
    intro i
    rw [List.find?_range_eq_none] at hfind
    by_cases hi : i < (beforeEnd rs).length
    · simpa using hfind i hi
    · exact Bool.eq_false_iff.mpr fun h => hi (hlt i h)
  | some n =>
    obtain ⟨hn, -, hbefore⟩ := List.find?_range_eq_some.mp hfind
    exact ⟨hn, fun i hi => by simpa using hbefore i hi⟩

/-! ## the loop -/

/-- the entry at the index is returned, and is the last of those looked at -/
def Returns (rs : List (List UInt8)) (i : Option Nat) (es : List (List UInt8)) (r : Option DirEntry) : Prop :=
  match i with
  | none => r = none
  | some i => es.length = i + 1 ∧ r = some (DirEntry.ofBytes (rs.getD i []))

theorem Returns.unique {a b : Option Nat} {es : List (List UInt8)} {r : Option DirEntry} (ha : Returns rs a es r)
    (hb : Returns rs b es r) : a = b := by
  cases a with
  | none =>
    cases b with
    | none => rfl
    | some j => exact absurd (ha.symm.trans hb.2) (by simp)
  | some i =>
    cases b with
    | none => exact absurd (hb.symm.trans ha.2) (by simp)
    | some j => exact congrArg some (Nat.succ.inj (ha.1.symm.trans hb.1))

theorem Returns.pair {a : Option Nat} {es : List (List UInt8)} {e : Option DirEntry} (h : Returns rs a es e)
    (r q : List UInt8) : Returns (r :: q :: rs) (a.map (· + 2)) (r :: q :: es) e := by
  cases a with
  | none => exact h
  | some i => exact ⟨congrArg (· + 2) h.1, h.2⟩

theorem Returns.entry {a : Option Nat} {es : List (List UInt8)} {e : Option DirEntry} (h : Returns rs a es e)
    (r : List UInt8) : Returns (r :: rs) (a.map (· + 1)) (r :: es) e := by
  cases a with
  | none => exact h
  | some i => exact ⟨congrArg (· + 1) h.1, h.2⟩

section
variable {r q : List UInt8}

theorem roundEnd_pair (q : List UInt8) (rs : List (List UInt8)) (hend : ¬ r.getD 0 0 = 0)
    (hlfn : r.getD 11 0 = 0x0F) (i : Nat) :
    roundEnd (r :: q :: rs) i = match i with
      | 0 => none
      | 1 => some (some r)
      | i + 2 => roundEnd rs i := by
  rw [roundEnd.eq_def]
  dsimp only
  rw [if_neg hend, if_pos hlfn]
  match i with
  | 0 => rfl
  | 1 => rfl
  | _ + 2 => rfl

theorem roundEnd_cut (hend : ¬ r.getD 0 0 = 0) (hlfn : r.getD 11 0 = 0x0F) (i : Nat) : roundEnd [r] i = none := by
  unfold roundEnd
  rw [if_neg hend, if_pos hlfn]

theorem roundEnd_entry (rs : List (List UInt8)) (hend : ¬ r.getD 0 0 = 0) (hlfn : ¬ r.getD 11 0 = 0x0F) (i : Nat) :
    roundEnd (r :: rs) i = match i with
      | 0 => some none
      | i + 1 => roundEnd rs i := by
  rw [roundEnd.eq_def]
  dsimp only
  rw [if_neg hend, if_neg hlfn]

theorem accepts_end (hend : r.getD 0 0 = 0) (i : Nat) : accepts toUppercase name (r :: rs) i = false := by
  unfold accepts roundEnd
  rw [if_pos hend]
  rfl

theorem accepts_cut (hend : ¬ r.getD 0 0 = 0) (hlfn : r.getD 11 0 = 0x0F) (i : Nat) :
    accepts toUppercase name [r] i = false := by
  unfold accepts
  rw [roundEnd_cut hend hlfn]
  rfl

theorem accepts_pair (toUppercase : List Char → List Char) (name : List Char) (q : List UInt8) (rs : List (List UInt8))
    (hend : ¬ r.getD 0 0 = 0) (hlfn : r.getD 11 0 = 0x0F) :
    accepts toUppercase name (r :: q :: rs) 0 = false ∧
    accepts toUppercase name (r :: q :: rs) 1 = comparison toUppercase name (some r) q ∧
    ∀ i, accepts toUppercase name (r :: q :: rs) (i + 2) = accepts toUppercase name rs i := by
  have hround := roundEnd_pair q rs hend hlfn
  unfold accepts
  refine ⟨?_, ?_, fun i => ?_⟩
  · rw [hround]
    rfl
  · rw [hround]
    rfl
  · rw [hround]
    rfl

theorem accepts_entry (toUppercase : List Char → List Char) (name : List Char) (rs : List (List UInt8))
    (hend : ¬ r.getD 0 0 = 0) (hlfn : ¬ r.getD 11 0 = 0x0F) :
    accepts toUppercase name (r :: rs) 0 = comparison toUppercase name none r ∧
    ∀ i, accepts toUppercase name (r :: rs) (i + 1) = accepts toUppercase name rs i := by
  have hround := roundEnd_entry rs hend hlfn
  unfold accepts
  refine ⟨?_, fun i => ?_⟩
  · rw [hround]
    rfl
  · rw [hround]
    rfl

theorem comparison_some : comparison toUppercase name (some r) q = true ↔
    (lfnToString (LFNEntry.ofBytes r) = name ∨ dirEntryName (DirEntry.ofBytes q) = toUppercase name) := by
  simp [comparison]

theorem comparison_none :
    comparison toUppercase name none r = true ↔ dirEntryName (DirEntry.ofBytes r) = toUppercase name := by
  simp [comparison]

end

/-- **The loop returns the first record that a round accepts.** -/
theorem browse_first (toUppercase : List Char → List Char) (name : List Char) (rs : List (List UInt8)) :
    ∃ i, First (accepts toUppercase name rs) i ∧
      Returns rs i (browse toUppercase name rs).1 (browse toUppercase name rs).2 := by
  induction rs using browse.induct toUppercase name with
  | case1 => exact ⟨none, fun i => rfl, rfl⟩
  | case2 r rs hend =>
    rw [browse_end hend]
    exact ⟨none, accepts_end hend, rfl⟩
  | case3 r hend hlfn =>
    rw [browse_cut hend hlfn]
    exact ⟨none, accepts_cut hend hlfn, rfl⟩
  | case4 r hend hlfn q rs hit =>
    obtain ⟨hzero, hone, -⟩ := accepts_pair toUppercase name q rs hend hlfn
    rw [browse_pair_hit hend hlfn hit]
    refine ⟨some 1, ⟨hone.trans (comparison_some.mpr hit), fun i hi => ?_⟩, rfl, rfl⟩
    rw [Nat.lt_one_iff.mp hi]
    exact hzero
  | case5 r hend hlfn q rs miss ih =>
    obtain ⟨hzero, hone, hrest⟩ := accepts_pair toUppercase name q rs hend hlfn
    obtain ⟨a, hfirst, hreturns⟩ := ih
    rw [browse_pair_miss hend hlfn miss]
    refine ⟨a.map (· + 2), .shift 2 (fun i hi => ?_) ?_, hreturns.pair r q⟩
    · obtain rfl | rfl : i = 0 ∨ i = 1 := by omega
      · exact hzero
      · exact hone.trans (Bool.eq_false_iff.mpr fun h => miss (comparison_some.mp h))
    · rwa [show (fun i => accepts toUppercase name (r :: q :: rs) (i + 2)) = accepts toUppercase name rs from funext hrest]
  | case6 r rs hend hlfn hit =>
    obtain ⟨hzero, -⟩ := accepts_entry toUppercase name rs hend hlfn
    rw [browse_hit hend hlfn hit]
    exact ⟨some 0, ⟨hzero.trans (comparison_none.mpr hit), fun i hi => absurd hi (Nat.not_lt_zero i)⟩, rfl, rfl⟩
  | case7 r rs hend hlfn miss ih =>
    obtain ⟨hzero, hrest⟩ := accepts_entry toUppercase name rs hend hlfn
    obtain ⟨a, hfirst, hreturns⟩ := ih
    rw [browse_miss hend hlfn miss]
    refine ⟨a.map (· + 1), .shift 1 (fun i hi => ?_) ?_, hreturns.entry r⟩
    · rw [Nat.lt_one_iff.mp hi]
      exact hzero.trans (Bool.eq_false_iff.mpr fun h => miss (comparison_none.mp h))
    · rwa [show (fun i => accepts toUppercase name (r :: rs) (i + 1)) = accepts toUppercase name rs from funext hrest]

end

/-- an entry is no LFN entry -/
theorem isEntry_plain {rs : List (List UInt8)} {i : Nat} (h : isEntry rs i = true) :
    ¬ (rs.getD i []).getD 11 0 = 0x0F := by
  intro hlfn
  have hlive := (Bool.and_eq_true_iff.mp (Bool.and_eq_true_iff.mp h).2).2
  unfold DirEntry.isLabel at hlive
  rw [show (DirEntry.ofBytes (rs.getD i [])).attr = 0x0F from hlfn] at hlive
  exact absurd hlive (by decide)

/-- every record before the end mark that is no LFN entry ends a round -/
theorem roundEnd_isSome (rs : List (List UInt8)) (i : Nat) : i < (beforeEnd rs).length →
    ¬ (rs.getD i []).getD 11 0 = 0x0F → (roundEnd rs i).isSome := by
  induction rs, i using roundEnd.induct with
  | case1 i => exact fun h => absurd h (Nat.not_lt_zero i)
  | case2 r rs i hend =>
    intro h
    rw [beforeEnd_cons_end hend] at h
    exact absurd h (Nat.not_lt_zero i)
  | case3 r hend hlfn q rs =>
    intro _ _
    rw [roundEnd_pair q rs hend hlfn]
    rfl
  | case4 r hend hlfn q rs i ih =>
    intro h hplain
    rw [roundEnd_pair q rs hend hlfn]
    refine ih ?_ hplain
    rw [beforeEnd_cons hend, List.length_cons] at h
    by_cases hq : q.getD 0 0 = 0
    · rw [beforeEnd_cons_end hq] at h
      exact absurd (Nat.lt_of_succ_lt_succ h) (Nat.not_lt_zero _)
    · rw [beforeEnd_cons hq, List.length_cons] at h
      exact Nat.lt_of_succ_lt_succ (Nat.lt_of_succ_lt_succ h)
  | case5 r rs i hend hlfn hone htwo =>
    intro h hplain
    match i, rs with
    | 0, _ => exact absurd hlfn hplain
    | 1, q :: rs => exact (hone q rs rfl rfl).elim
    | i + 2, q :: rs => exact (htwo q rs i rfl rfl).elim
    | i + 1, [] =>
      rw [beforeEnd_cons hend] at h
      exact absurd (Nat.lt_of_succ_lt_succ h) (Nat.not_lt_zero _)
  | case6 r rs hend hlfn =>
    intro _ _
    rw [roundEnd_entry rs hend hlfn]
    rfl
  | case7 r rs hend hlfn i ih =>
    intro h hplain
    rw [roundEnd_entry rs hend hlfn]
    refine ih ?_ hplain
    rw [beforeEnd_cons hend, List.length_cons] at h
    exact Nat.lt_of_succ_lt_succ h

/-! ## when the loop finds the name -/

/-- `find_file` returns the first entry that bears the name: it is the last that the loop looks at. -/
def Finds (toUppercase : List Char → List Char) (f : Fat32) (c : Nat) (cs : List Nat) (name : List Char) : Prop :=
  ∃ fuel₀, ∀ fuel, fuel₀ ≤ fuel → ∃ es r f', Fat32.examine toUppercase name fuel c f = some (es, r, f') ∧
    Returns (f.records cs) (named toUppercase name (f.records cs)) es r

section
variable (toUppercase : List Char → List Char) (name : List Char) (rs : List (List UInt8)) (lfn : Option (List UInt8))
  (i : Nat)

/-- The `i`-th entry is told by its name: its long name is the name and stands in the one LFN entry of the round, or its
short name is the name in upper case and has no blanks. -/
def Told : Prop :=
  (longName rs i = some (utf16 name) ∧ ∃ l ∈ lfn, (LFNEntry.ofBytes l).Spells name) ∨
    ((DirEntry.ofBytes (rs.getD i [])).shortName = toUppercase name ∧ (DirEntry.ofBytes (rs.getD i [])).Tight)

/-- It is taken for one of the name: the LFN entry of the round reads like the name, and its long name is another or
none; or its short name without its blanks reads like it, and is another. -/
def Mistaken : Prop :=
  (longName rs i ≠ some (utf16 name) ∧ ∃ l ∈ lfn, lfnToString (LFNEntry.ofBytes l) = name) ∨
    ((DirEntry.ofBytes (rs.getD i [])).shortName ≠ toUppercase name ∧
      dirEntryName (DirEntry.ofBytes (rs.getD i [])) = toUppercase name)

end

/-- the LFN entry of a round is the record before the entry -/
theorem roundEnd_lfn {l : List UInt8} (rs : List (List UInt8)) (i : Nat) (h : roundEnd rs i = some (some l)) :
    ∃ before, rs.take i = before ++ [l] := by
  induction rs, i using roundEnd.induct with
  | case1 i => cases h
  | case2 r rs i hend =>
    unfold roundEnd at h
    rw [if_pos hend] at h
    cases h
  | case3 r hend hlfn q rs =>
    rw [roundEnd_pair q rs hend hlfn] at h
    obtain rfl := Option.some.inj (Option.some.inj h)
    exact ⟨[], rfl⟩
  | case4 r hend hlfn q rs i ih =>
    rw [roundEnd_pair q rs hend hlfn] at h
    obtain ⟨before, hb⟩ := ih h
    exact ⟨r :: q :: before, congrArg (r :: q :: ·) hb⟩
  | case5 r rs i hend hlfn hone htwo =>
    cases rs with
    | nil =>
      rw [roundEnd_cut hend hlfn] at h
      cases h
    | cons q rs =>
      rw [roundEnd_pair q rs hend hlfn] at h
      match i with
      | 0 => cases h
      | 1 => exact (hone q rs rfl rfl).elim
      | i + 2 => exact (htwo q rs i rfl rfl).elim
  | case6 r rs hend hlfn =>
    rw [roundEnd_entry rs hend hlfn] at h
    cases h
  | case7 r rs hend hlfn i ih =>
    rw [roundEnd_entry rs hend hlfn] at h
    obtain ⟨before, hb⟩ := ih h
    exact ⟨r :: before, congrArg (r :: ·) hb⟩

/-- a complete run begins with its nearest entry -/
theorem lfnRun_cons {k : Nat} {l : List UInt8} {before : List (List UInt8)} {units : List Nat}
    (h : lfnRun k (l :: before) = some units) : ∃ more, units = (LFNEntry.ofBytes l).units ++ more := by
  unfold lfnRun at h
  split at h
  · split at h
    · exact ⟨[], by rw [List.append_nil, Option.some.inj h]⟩
    · split at h
      · obtain ⟨more, -, rfl⟩ := Option.map_eq_some_iff.mp h
        exact ⟨more, rfl⟩
      · cases h
  · cases h

theorem comparison_eq_true {toUppercase : List Char → List Char} {name : List Char} {lfn : Option (List UInt8)}
    {r : List UInt8} : comparison toUppercase name lfn r = true ↔
      (∃ l ∈ lfn, lfnToString (LFNEntry.ofBytes l) = name) ∨ dirEntryName (DirEntry.ofBytes r) = toUppercase name := by
  simp [comparison, Option.any_eq_true]

theorem comparison_eq_false {toUppercase : List Char → List Char} {name : List Char} {lfn : Option (List UInt8)}
    {r : List UInt8} : comparison toUppercase name lfn r = false ↔
      (∀ l ∈ lfn, lfnToString (LFNEntry.ofBytes l) ≠ name) ∧ dirEntryName (DirEntry.ofBytes r) ≠ toUppercase name := by
  rw [← Bool.not_eq_true, comparison_eq_true, not_or]
  simp only [not_exists, not_and, ne_eq]

/-- **What a comparison says**: the entry is told by its name, or taken for one of the name. -/
theorem comparison_iff (toUppercase : List Char → List Char) (name : List Char) {rs : List (List UInt8)}
    {lfn : Option (List UInt8)} {i : Nat} (hr : roundEnd rs i = some lfn) :
    comparison toUppercase name lfn (rs.getD i []) = true ↔
      Told toUppercase name rs lfn i ∨ Mistaken toUppercase name rs lfn i := by
  have hlong : ∀ l ∈ lfn, longName rs i = some (utf16 name) →
      (lfnToString (LFNEntry.ofBytes l) = name ↔ (LFNEntry.ofBytes l).Spells name) := by
    rintro l rfl hname
    obtain ⟨before, hb⟩ := roundEnd_lfn rs i hr
    unfold longName at hname
    rw [hb, List.reverse_append] at hname
    obtain ⟨units, hrun, htake⟩ := Option.map_eq_some_iff.mp hname
    obtain ⟨more, rfl⟩ := lfnRun_cons hrun
    exact lfnToString_eq_iff (LFNEntry.length_units l) htake
  have hshort : ∀ e : DirEntry, e.shortName = toUppercase name → (dirEntryName e = toUppercase name ↔ e.Tight) := by
    intro e he
    rw [← he, DirEntry.dirEntryName_eq_iff]
  rw [comparison_eq_true]
  unfold Told Mistaken
  constructor
  · rintro (⟨l, hl, he⟩ | he)
    · by_cases hname : longName rs i = some (utf16 name)
      · exact .inl (.inl ⟨hname, l, hl, (hlong l hl hname).mp he⟩)
      · exact .inr (.inl ⟨hname, l, hl, he⟩)
    · by_cases hname : (DirEntry.ofBytes (rs.getD i [])).shortName = toUppercase name
      · exact .inl (.inr ⟨hname, (hshort _ hname).mp he⟩)
      · exact .inr (.inr ⟨hname, he⟩)
  · rintro ((⟨hname, l, hl, hs⟩ | ⟨hname, ht⟩) | (⟨-, l, hl, he⟩ | ⟨-, he⟩))
    · exact .inl ⟨l, hl, (hlong l hl hname).mpr hs⟩
    · exact .inr ((hshort _ hname).mpr ht)
    · exact .inl ⟨l, hl, he⟩
    · exact .inr he

section
variable (toUppercase : List Char → List Char) (name : List Char) (rs : List (List UInt8))

/-- The name is found by the comparisons: the entry that it stands for is told by it, or taken for one of the name, and
nothing before it, or nothing at all if it stands for none, has a part of a long name or a short name that reads like
it, be it deleted, a label, an LFN entry or another file. -/
structure Findable : Prop where
  before : ∀ i lfn, (∀ k ∈ named toUppercase name rs, i < k) → roundEnd rs i = some lfn →
    (∀ l ∈ lfn, lfnToString (LFNEntry.ofBytes l) ≠ name) ∧
      dirEntryName (DirEntry.ofBytes (rs.getD i [])) ≠ toUppercase name
  told : ∀ i lfn, named toUppercase name rs = some i → roundEnd rs i = some lfn →
    Told toUppercase name rs lfn i ∨ Mistaken toUppercase name rs lfn i

end

/-- the first record that a round accepts is the first entry that bears the name -/
theorem accepts_named_iff {toUppercase : List Char → List Char} {name : List Char} {rs : List (List UInt8)} :
    ((∀ i, (∀ k ∈ named toUppercase name rs, i < k) → accepts toUppercase name rs i = false) ∧
      ∀ k ∈ named toUppercase name rs, accepts toUppercase name rs k = true) ↔ Findable toUppercase name rs := by
  have hround : ∀ {i lfn}, roundEnd rs i = some lfn →
      accepts toUppercase name rs i = comparison toUppercase name lfn (rs.getD i []) := by
    intro i lfn h
    unfold accepts
    rw [h, Option.any_some]
  constructor
  · rintro ⟨hbefore, hat⟩
    refine ⟨fun i lfn hi hr => comparison_eq_false.mp ?_, fun i lfn hi hr => (comparison_iff toUppercase name hr).mp ?_⟩
    · rw [← hround hr, hbefore i hi]
    · rw [← hround hr, hat i hi]
  · intro h
    refine ⟨fun i hi => ?_, fun i hi => ?_⟩
    · cases hr : roundEnd rs i with
      | none =>
        unfold accepts
        rw [hr, Option.any_none]
      | some lfn =>
        rw [hround hr]
        exact comparison_eq_false.mpr (h.before i lfn hi hr)
    · -- the entry ends a round: it is no LFN entry
      have hentry : isEntry rs i = true := by
        have hfirst : First (bears toUppercase name rs) (named toUppercase name rs) := named_first
        rw [Option.mem_def.mp hi] at hfirst
        exact (Bool.and_eq_true_iff.mp hfirst.1).1
      obtain ⟨lfn, hr⟩ := Option.isSome_iff_exists.mp (roundEnd_isSome rs i (isEntry_lt hentry) (isEntry_plain hentry))
      rw [hround hr]
      exact (comparison_iff toUppercase name hr).mpr (h.told i lfn hi hr)

/-- the loop passes over an entry that bears the name -/
theorem not_finds {toUppercase : List Char → List Char} {f : Fat32} (hf : f.Ready) (hspc : f.sectorsPerCluster = 1)
    {c : Nat} {cs : List Nat} (h : f.Chain c cs) {name : List Char} {i : Nat}
    (hnamed : named toUppercase name (f.records cs) = some i) (hnone : (browse toUppercase name (f.records cs)).2 = none) :
    ¬ Finds toUppercase f c cs name := by
  intro ⟨fuel₀, hfind⟩
  obtain ⟨es, r, f', he, hreturns⟩ := hfind (max fuel₀ ((f.records cs).length + 1)) (Nat.le_max_left ..)
  obtain ⟨f'', -, hbrowse⟩ := Fat32.examine_browse toUppercase name hf hspc h
    (show (f.records cs).length < max fuel₀ ((f.records cs).length + 1) from Nat.le_max_right ..)
  rw [hnone] at hbrowse
  rw [hnamed] at hreturns
  cases he.symm.trans hbrowse
  exact absurd hreturns.2 (by simp)

/-- **When `find_file` finds the name**: exactly when the entry that it stands for has the whole of it in the one LFN
entry of its round, or in a short name without blanks, and nothing before that entry reads like it. -/
theorem finds_iff (toUppercase : List Char → List Char) (f : Fat32) (hf : f.Ready) (hspc : f.sectorsPerCluster = 1)
    (c : Nat) (cs : List Nat) (h : f.Chain c cs) (name : List Char) :
    Finds toUppercase f c cs name ↔ Findable toUppercase name (f.records cs) := by
  obtain ⟨a, hfirst, hreturns⟩ := browse_first toUppercase name (f.records cs)
  have hfindable : a = named toUppercase name (f.records cs) ↔ Findable toUppercase name (f.records cs) :=
    (first_eq_iff hfirst named_first).trans accepts_named_iff
  rw [← hfindable]
  constructor
  · intro ⟨fuel₀, hfind⟩
    obtain ⟨es, r, f', he, hnamed⟩ := hfind (max fuel₀ ((f.records cs).length + 1)) (Nat.le_max_left ..)
    obtain ⟨f'', -, hbrowse⟩ := Fat32.examine_browse toUppercase name hf hspc h
      (show (f.records cs).length < max fuel₀ ((f.records cs).length + 1) from Nat.le_max_right ..)
    cases he.symm.trans hbrowse
    exact hreturns.unique hnamed
  · intro e
    subst e
    refine ⟨(f.records cs).length + 1, fun fuel hle => ?_⟩
    obtain ⟨f', -, hbrowse⟩ := Fat32.examine_browse toUppercase name hf hspc h hle
    exact ⟨_, _, f', hbrowse, hreturns⟩

/-! ## a long name -/

/-- the files `longfilename.txt`, with two LFN entries, and `config.json`, with one; the FAT is sector 0, the directory
cluster 2 -/
def namesFront : Nat → List UInt8
  | 0 => [0xF8, 0xFF, 0xFF, 0x0F, 0xFF, 0xFF, 0xFF, 0x0F, 0xFF, 0xFF, 0xFF, 0x0F, 0xFF, 0xFF, 0xFF, 0x0F,
      0xFF, 0xFF, 0xFF, 0x0F]
  | 1 => [0x42, 116, 0, 120, 0, 116, 0, 0, 0, 0xFF, 0xFF, 0x0F, 0, 0, 0xFF, 0xFF,
      0xFF, 0xFF, 0xFF, 0xFF, 0xFF, 0xFF, 0xFF, 0xFF, 0xFF, 0xFF, 0, 0, 0xFF, 0xFF, 0xFF, 0xFF,
      1, 108, 0, 111, 0, 110, 0, 103, 0, 102, 0, 0x0F, 0, 0, 105, 0,
      108, 0, 101, 0, 110, 0, 97, 0, 109, 0, 0, 0, 101, 0, 46, 0,
      76, 79, 78, 71, 70, 73, 126, 49, 84, 88, 84, 0x20, 0, 0, 0, 0, 0, 0, 0, 0, 0, 0, 0, 0, 0, 0, 3, 0, 1, 0, 0, 0,
      0x41, 99, 0, 111, 0, 110, 0, 102, 0, 105, 0, 0x0F, 0, 0, 103, 0,
      46, 0, 106, 0, 115, 0, 111, 0, 110, 0, 0, 0, 0, 0, 0xFF, 0xFF,
      67, 79, 78, 70, 73, 71, 126, 49, 74, 83, 79, 0x20, 0, 0, 0, 0, 0, 0, 0, 0, 0, 0, 0, 0, 0, 0, 4, 0, 1, 0, 0, 0]
  | _ => []

theorem length_namesFront : ∀ n, (namesFront n).length ≤ 512
  | 0 => by decide
  | 1 => by decide +kernel
  | _ + 2 => Nat.zero_le _

def namesVolume : Fat32 :=
  { treeVolume with disk := ⟨fun n => Fat32.padded (namesFront n), fun n => Fat32.length_padded (length_namesFront n)⟩ }

theorem namesVolume_ready : namesVolume.Ready := ⟨rfl, le_rfl, by decide, List.length_replicate⟩

theorem namesVolume_chain : namesVolume.Chain 2 [2] := .last ⟨by decide, by decide, by decide⟩ (by decide)

def namesRecords : List (List UInt8) :=
  (List.range 5).map (fun i => slice (32 * i) 32 (namesFront 1)) ++ List.replicate 11 (List.replicate 32 0)

theorem namesVolume_records : namesVolume.records [2] = namesRecords := by decide +kernel

/-- a long name that one LFN entry holds is found -/
theorem finds_iff_example : Finds upperAscii namesVolume 2 [2] "config.json".toList := by
  have hnamed : named upperAscii "config.json".toList namesRecords = some 4 := by decide
  have hround : roundEnd namesRecords 4 = some (some (namesRecords.getD 3 [])) := by decide
  have hbefore : ∀ i < 4, accepts upperAscii "config.json".toList namesRecords i = false := by decide
  have hlong : longName namesRecords 4 = some (utf16 "config.json".toList) := by decide
  have hspells : (LFNEntry.ofBytes (namesRecords.getD 3 [])).Spells "config.json".toList := by decide
  refine (finds_iff upperAscii namesVolume namesVolume_ready rfl 2 [2] namesVolume_chain _).2 ?_
  rw [namesVolume_records]
  refine ⟨fun i lfn hi hr => ?_, fun i lfn hi hr => ?_⟩
  · have haccepts := hbefore i (hi 4 hnamed)
    unfold accepts at haccepts
    rw [hr] at haccepts
    exact comparison_eq_false.mp haccepts
  · obtain rfl := Option.some.inj (hnamed.symm.trans hi)
    obtain rfl := Option.some.inj (hround.symm.trans hr)
    exact .inl (.inl ⟨hlong, _, rfl, hspells⟩)

theorem namesVolume_missed : named upperAscii "longfilename.txt".toList namesRecords = some 2 ∧
    (browse upperAscii "longfilename.txt".toList namesRecords).2 = none := by
  constructor
  · decide
  · decide

/-- By its long name, in two parts, it is not found. -/
theorem long_name_not_found : ¬ ∀ (toUppercase : List Char → List Char) (f : Fat32), f.Ready → f.sectorsPerCluster = 1 →
    ∀ (c : Nat) (cs : List Nat), f.Chain c cs → ∀ name, Finds toUppercase f c cs name := by
  intro hall
  obtain ⟨hnamed, hnone⟩ := namesVolume_missed
  rw [← namesVolume_records] at hnamed hnone
  exact not_finds namesVolume_ready rfl namesVolume_chain hnamed hnone
    (hall upperAscii namesVolume namesVolume_ready rfl 2 [2] namesVolume_chain _)

end Citron.Fs
