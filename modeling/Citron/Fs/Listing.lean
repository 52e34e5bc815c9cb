import Citron.Fs.Scan

/-!
# Directory listings

`list_all_files_in_dir` beside `find_file`.  It walks the same directory, but takes a buffer of 512 bytes for 128
entries, and stops at a deleted entry as at the end mark.  The lines that it prints are its result here.

* `advanceBy`            the step from an entry to the next, with the number of entries in the buffer;
* `listAllFilesInDir_eq` what is printed: the entries before the first deleted one, of the first sector;
* `walkersAgree_iff`     the two agree on fewer than 16 entries in upper case, the deleted ones last.
-/

namespace Citron.Fs
namespace Fat32

/-- `curr_idx += 1`, with the next cluster after `entries` of them -/
def advanceBy (entries : Nat) (f : Fat32) (c : Cursor) : Option (Option Cursor × Fat32) :=
  let currIdx := c.currIdx + 1
  if entries ≤ currIdx then
    (f.nextCluster c.dirCluster).bind fun (next, f) =>
      match next with
      | some cluster => (f.readCluster cluster c.buf).map fun buf => (some ⟨cluster, buf, currIdx % entries⟩, f)
      | none => some (none, f)
  else some (some ⟨c.dirCluster, c.buf, currIdx⟩, f)

/-- the loop of `list_all_files_in_dir`, with the lines that it prints -/
def listLoop : Nat → Cursor → Fat32 → Option (List (List Char) × Fat32)
  | 0, _, _ => none
  | fuel + 1, c, f =>
    -- an entry outside the buffer
    if c.buf.length < c.currIdx * 32 + 32 then none
    else if c.entry.getD 0 0 = 0 ∨ c.entry.getD 0 0 = 0xE5 then some ([], f)
    else
      let isLfn := c.entry.getD 11 0 = 0x0F
      let line := if isLfn then lfnToString (LFNEntry.ofBytes c.entry) else dirEntryName (DirEntry.ofBytes c.entry)
      -- the entry after an LFN entry is passed over unread
      (if isLfn then f.advanceBy 128 c else some (some c, f)).bind fun
        | (none, f) => some ([line], f)
        | (some c, f) => (f.advanceBy 128 c).bind fun
            | (none, f) => some ([line], f)
            | (some c, f) => (listLoop fuel c f).map fun (lines, f) => (line :: lines, f)

def listAllFilesInDir (fuel clusterNum : Nat) (f : Fat32) : Option (List (List Char) × Fat32) :=
  (f.readCluster clusterNum (List.replicate 512 0)).bind fun buf => listLoop fuel ⟨clusterNum, buf, 0⟩ f

end Fat32

/-! ## what is printed -/

def recordName (r : List UInt8) : List Char := dirEntryName (DirEntry.ofBytes r)

/-- the record is not deleted -/
def isUsed (r : List UInt8) : Bool := !(DirEntry.ofBytes r).deleted

/-- the records before the end mark that are not deleted -/
def used (rs : List (List UInt8)) : List (List UInt8) := (beforeEnd rs).filter isUsed

/-- those before the first deleted one -/
def shown (rs : List (List UInt8)) : List (List UInt8) := (beforeEnd rs).takeWhile isUsed

theorem isUsed_iff (r : List UInt8) : isUsed r = true ↔ ¬ r.getD 0 0 = 0xE5 := by
  have hhead : (slice 0 11 r).getD 0 0 = r.getD 0 0 := by
    cases r with
    | nil => rfl
    | cons b bs => rfl
  unfold isUsed DirEntry.deleted DirEntry.ofBytes
  rw [hhead]
  simp

section
variable {r : List UInt8} {rs : List (List UInt8)}

theorem shown_cons_stop (h : r.getD 0 0 = 0 ∨ r.getD 0 0 = 0xE5) : shown (r :: rs) = [] := by
  unfold shown
  by_cases hend : r.getD 0 0 = 0
  · rw [beforeEnd_cons_end hend]
    rfl
  · rw [beforeEnd_cons hend, List.takeWhile_cons_of_neg]
    exact fun hu => (isUsed_iff r).mp hu (h.resolve_left hend)

theorem shown_cons (h : ¬ (r.getD 0 0 = 0 ∨ r.getD 0 0 = 0xE5)) : shown (r :: rs) = r :: shown rs := by
  obtain ⟨hend, hdel⟩ := not_or.mp h
  unfold shown
  rw [beforeEnd_cons hend, List.takeWhile_cons_of_pos ((isUsed_iff r).mpr hdel)]

theorem shown_eq (rs : List (List UInt8)) :
    shown rs = rs.takeWhile fun r => decide (isUsed r = true ∧ decide (r.getD 0 0 ≠ 0) = true) :=
  List.takeWhile_takeWhile ..

theorem length_shown_le (rs : List (List UInt8)) : (shown rs).length ≤ rs.length := by
  rw [shown_eq]
  exact (List.takeWhile_sublist _).length_le

end

/-- the records of the first cluster decide whether the listing stays in them -/
theorem shown_append {rs : List (List UInt8)} (rest : List (List UInt8)) :
    ((shown (rs ++ rest)).length < rs.length ↔ (shown rs).length < rs.length) ∧
      ((shown rs).length < rs.length → shown (rs ++ rest) = shown rs) := by
  have happ := shown_eq (rs ++ rest)
  rw [List.takeWhile_append, ← shown_eq, ← shown_eq] at happ
  have hle := length_shown_le rs
  split at happ
  next hall =>
    rw [happ]
    refine ⟨?_, fun h => absurd h (by omega)⟩
    rw [List.length_append]
    omega
  next hcut =>
    rw [happ]
    exact ⟨Iff.rfl, fun _ => rfl⟩

namespace Fat32
variable {f : Fat32}

/-- the loop in the first cluster; at its end the next entry is outside the buffer -/
theorem listLoop_eq : ∀ {fuel : Nat} {c : Cursor}, c.buf.length = 512 → c.currIdx ≤ 16 →
    (∀ r ∈ beforeEnd ((entriesOf c.buf).drop c.currIdx), r.getD 11 0 ≠ 0x0F) → 16 - c.currIdx < fuel →
    listLoop fuel c f =
      if (shown ((entriesOf c.buf).drop c.currIdx)).length < 16 - c.currIdx then
        some ((shown ((entriesOf c.buf).drop c.currIdx)).map recordName, f)
      else none := by
  intro fuel
  induction fuel with
  | zero => intro c _ _ _ h; exact absurd h (Nat.not_lt_zero _)
  | succ fuel ih =>
    intro c hbuf hidx hplain hfuel
    unfold listLoop
    rw [hbuf]
    by_cases hout : 512 < c.currIdx * 32 + 32
    · rw [if_pos hout, if_neg (by omega)]
    have hlt : c.currIdx < 16 := by omega
    have hdrop : (entriesOf c.buf).drop c.currIdx = c.entry :: (entriesOf c.buf).drop (c.currIdx + 1) :=
      entriesOf_drop c.buf hlt
    rw [hdrop] at hplain ⊢
    rw [if_neg hout]
    by_cases hstop : c.entry.getD 0 0 = 0 ∨ c.entry.getD 0 0 = 0xE5
    · rw [if_pos hstop, shown_cons_stop hstop, if_pos (by rw [List.length_nil]; omega)]
      rfl
    · rw [beforeEnd_cons (not_or.mp hstop).1] at hplain
      have hlfn : ¬ c.entry.getD 11 0 = 0x0F := hplain _ List.mem_cons_self
      have hadv : f.advanceBy 128 c = some (some ⟨c.dirCluster, c.buf, c.currIdx + 1⟩, f) := if_neg (by omega)
      have hrest := ih (c := ⟨c.dirCluster, c.buf, c.currIdx + 1⟩) hbuf (by dsimp only; omega)
        (fun r hr => hplain r (List.mem_cons_of_mem _ hr)) (by dsimp only; omega)
      dsimp only at hrest
      rw [if_neg hstop]
      dsimp only
      rw [if_neg hlfn, if_neg hlfn, Option.bind_some]
      dsimp only
      rw [hadv, Option.bind_some]
      dsimp only
      rw [hrest, shown_cons hstop, List.length_cons]
      by_cases hfew : (shown ((entriesOf c.buf).drop (c.currIdx + 1))).length < 16 - (c.currIdx + 1)
      · rw [if_pos hfew, if_pos (by omega)]
        rfl
      · rw [if_neg hfew, if_neg (by omega)]
        rfl

/-- **What `list_all_files_in_dir` prints**: the entries up to the end mark or the first deleted one.  After 16 entries
it is outside its buffer. -/
theorem listAllFilesInDir_eq (hf : f.Ready) (hspc : f.sectorsPerCluster = 1) {c : Nat} {cs : List Nat}
    (h : f.Chain c cs) (hplain : ∀ r ∈ beforeEnd (f.records cs), r.getD 11 0 ≠ 0x0F) {fuel : Nat} (hfuel : 16 < fuel) :
    listAllFilesInDir fuel c f =
      if (shown (f.records cs)).length < 16 then some ((shown (f.records cs)).map recordName, f) else none := by
  obtain ⟨rest, rfl⟩ : ∃ rest, cs = c :: rest := by
    cases h with
    | last _ _ => exact ⟨[], rfl⟩
    | link _ _ _ => exact ⟨_, rfl⟩
  have hsize : f.clusterSize = 512 := by rw [hf.clusterSize_eq, hspc]
  have hlen : (entriesOf (f.clusterBytes c)).length = 16 := by simp [entriesOf]
  have hrecords : f.records (c :: rest) = entriesOf (f.clusterBytes c) ++ f.records rest := rfl
  have hfirst : ∀ r ∈ beforeEnd (entriesOf (f.clusterBytes c)), r.getD 11 0 ≠ 0x0F := by
    intro r hr
    refine hplain r ?_
    rw [hrecords]
    unfold beforeEnd at hr ⊢
    rw [List.takeWhile_append]
    split
    · exact List.mem_append_left _ ((List.takeWhile_sublist _).subset hr)
    · exact hr
  have hloop := @listLoop_eq f fuel ⟨c, f.clusterBytes c, 0⟩
    ((length_clusterBytes hf c).trans hsize) (Nat.zero_le _) hfirst hfuel
  dsimp only at hloop
  rw [List.drop_zero] at hloop
  obtain ⟨hiff, hsame⟩ := @shown_append (entriesOf (f.clusterBytes c)) (f.records rest)
  rw [hlen] at hiff hsame
  unfold listAllFilesInDir
  rw [readCluster_eq hf (by rw [List.length_replicate, hsize]), Option.bind_some, rawCluster_eq h.inData, hloop,
    hrecords]
  by_cases hfew : (shown (entriesOf (f.clusterBytes c))).length < 16
  · rw [if_pos hfew, if_pos (hiff.mpr hfew), hsame hfew]
  · rw [if_neg hfew, if_neg fun h => hfew (hiff.mp h)]

end Fat32

/-! ## both walkers -/

theorem shown_sublist_used (rs : List (List UInt8)) : (shown rs).Sublist (used rs) := by
  have hself : (shown rs).filter isUsed = shown rs :=
    List.filter_eq_self.mpr fun r hr => List.mem_takeWhile_imp hr
  rw [← hself]
  exact (List.takeWhile_sublist _).filter _

/-- nothing that is not deleted comes after something deleted -/
theorem shown_eq_used_iff (rs : List (List UInt8)) : shown rs = used rs ↔ used rs <+: beforeEnd rs := by
  unfold shown used
  induction beforeEnd rs with
  | nil => exact iff_of_true rfl List.prefix_rfl
  | cons r rs ih =>
    by_cases hr : isUsed r = true
    · rw [List.takeWhile_cons_of_pos hr, List.filter_cons_of_pos hr, List.cons_prefix_cons, List.cons.injEq, ih]
    · rw [List.takeWhile_cons_of_neg hr, List.filter_cons_of_neg hr]
      constructor
      · intro h
        rw [← h]
        exact List.nil_prefix
      · intro h
        cases hrest : rs.filter isUsed with
        | nil => rfl
        | cons q qs =>
          rw [hrest, List.cons_prefix_cons] at h
          have hq : isUsed q = true := (List.mem_filter.mp (hrest ▸ List.mem_cons_self : q ∈ rs.filter isUsed)).2
          rw [h.1] at hq
          exact absurd hq hr

/-- without LFN entries `find_file` returns the first record of the name -/
theorem browse_plain (toUppercase : List Char → List Char) (name : List Char) {rs : List (List UInt8)}
    (hplain : ∀ r ∈ beforeEnd rs, r.getD 11 0 ≠ 0x0F) :
    (browse toUppercase name rs).2 = scan toUppercase name rs := by
  induction rs with
  | nil => rfl
  | cons r rs ih =>
    unfold scan
    by_cases hend : r.getD 0 0 = 0
    · rw [browse_end hend, if_pos hend]
    · rw [beforeEnd_cons hend] at hplain
      have hlfn : ¬ r.getD 11 0 = 0x0F := hplain r List.mem_cons_self
      rw [if_neg hend]
      by_cases hname : dirEntryName (DirEntry.ofBytes r) = toUppercase name
      · rw [browse_hit hend hlfn hname, if_pos hname]
      · rw [browse_miss hend hlfn hname, if_neg hname, ih fun r hr => hplain r (List.mem_cons_of_mem _ hr)]

theorem scan_some {toUppercase : List Char → List Char} {name : List Char} {rs : List (List UInt8)} {e : DirEntry}
    (h : scan toUppercase name rs = some e) : dirEntryName e = toUppercase name := by
  rw [scan_eq] at h
  simpa using List.find?_some h

/-- with the deleted entries last, a name in upper case leads to an entry of it -/
theorem scan_used {toUppercase : List Char → List Char} {rs : List (List UInt8)} (hlast : used rs <+: beforeEnd rs)
    {r : List UInt8} (hr : r ∈ used rs) (hupper : toUppercase (recordName r) = recordName r) :
    ∃ q ∈ used rs, recordName q = recordName r ∧
      scan toUppercase (recordName r) rs = some (DirEntry.ofBytes q) := by
  obtain ⟨rest, hsplit⟩ := hlast
  have hfound : ∃ e, ((used rs).map DirEntry.ofBytes).find?
      (fun e => dirEntryName e == toUppercase (recordName r)) = some e := by
    refine Option.isSome_iff_exists.mp (List.find?_isSome.mpr ⟨_, List.mem_map_of_mem hr, ?_⟩)
    rw [hupper]
    exact beq_self_eq_true _
  obtain ⟨e, he⟩ := hfound
  obtain ⟨q, hq, rfl⟩ := List.mem_map.mp (List.mem_of_find?_eq_some he)
  have hscan : scan toUppercase (recordName r) rs = some (DirEntry.ofBytes q) := by
    rw [scan_eq]
    show ((beforeEnd rs).map DirEntry.ofBytes).find? _ = _
    rw [← hsplit, List.map_append, List.find?_append, he]
    rfl
  exact ⟨q, hq, (scan_some hscan).trans hupper, hscan⟩

/-- the bytes of every record are in its sector -/
theorem Fat32.length_of_mem_records {f : Fat32} (hf : f.Ready) (hspc : f.sectorsPerCluster = 1) {cs : List Nat}
    {r : List UInt8} (h : r ∈ f.records cs) : r.length = 32 := by
  obtain ⟨c, -, hr⟩ := List.mem_flatMap.mp h
  obtain ⟨i, hi, rfl⟩ := List.mem_map.mp hr
  have hi := List.mem_range.mp hi
  unfold slice
  rw [List.length_take, List.length_drop, length_clusterBytes hf, hf.clusterSize_eq, hspc]
  omega

/-- The walkers agree on a directory: the listing prints the names of the entries before the end mark that are not
deleted, in order; `find_file` with such a name returns such an entry of it; and with every name the entries that it
looks at are in its buffer, as those of the listing are where it has a result. -/
structure WalkersAgree (toUppercase : List Char → List Char) (f : Fat32) (c : Nat) (cs : List Nat) : Prop where
  lists : ∃ fuel₀, ∀ fuel, fuel₀ ≤ fuel → ∃ f',
    Fat32.listAllFilesInDir fuel c f = some ((used (f.records cs)).map recordName, f')
  finds : ∀ r ∈ used (f.records cs), ∃ fuel₀, ∀ fuel, fuel₀ ≤ fuel → ∃ q ∈ used (f.records cs),
    recordName q = recordName r ∧
      (Fat32.findFile toUppercase fuel c (recordName r) f).map Prod.fst = some (some (DirEntry.ofBytes q))
  inside : ∀ name, ∃ fuel₀, ∀ fuel, fuel₀ ≤ fuel → ∃ es res f',
    Fat32.examine toUppercase name fuel c f = some (es, res, f') ∧ ∀ e ∈ es, e.length = 32

/-- fewer than 16 entries that are not deleted, before all that are deleted, and with names in upper case -/
structure Listable (toUppercase : List Char → List Char) (rs : List (List UInt8)) : Prop where
  few : (used rs).length < 16
  last : used rs <+: beforeEnd rs
  upper : ∀ r ∈ used rs, toUppercase (recordName r) = recordName r

section
variable {toUppercase : List Char → List Char} {f : Fat32} {c : Nat} {cs : List Nat}

theorem Fat32.findFile_scan (hf : f.Ready) (hspc : f.sectorsPerCluster = 1) (h : f.Chain c cs)
    (hplain : ∀ r ∈ beforeEnd (f.records cs), r.getD 11 0 ≠ 0x0F) (name : List Char) {fuel : Nat}
    (hfuel : (f.records cs).length < fuel) :
    (findFile toUppercase fuel c name f).map Prod.fst = some (scan toUppercase name (f.records cs)) := by
  obtain ⟨f', -, he⟩ := examine_browse toUppercase name hf hspc h hfuel
  rw [← examine_snd, he, browse_plain toUppercase name hplain]
  rfl

theorem Fat32.examine_inside (hf : f.Ready) (hspc : f.sectorsPerCluster = 1) (h : f.Chain c cs) (name : List Char)
    {fuel : Nat} (hfuel : (f.records cs).length < fuel) :
    ∃ es res f', examine toUppercase name fuel c f = some (es, res, f') ∧ ∀ e ∈ es, e.length = 32 := by
  obtain ⟨f', -, he⟩ := examine_browse toUppercase name hf hspc h hfuel
  have hread : (browse toUppercase name (f.records cs)).1 <+: f.records cs := browse_prefix (f.records cs)
  exact ⟨_, _, f', he, fun e hmem => length_of_mem_records hf hspc (hread.subset hmem)⟩

/-- where the listing prints every entry that is not deleted -/
theorem Fat32.lists_iff (hf : f.Ready) (hspc : f.sectorsPerCluster = 1) (h : f.Chain c cs)
    (hplain : ∀ r ∈ beforeEnd (f.records cs), r.getD 11 0 ≠ 0x0F) {fuel : Nat} (hfuel : 16 < fuel) :
    (∃ f', listAllFilesInDir fuel c f = some ((used (f.records cs)).map recordName, f')) ↔
      (used (f.records cs)).length < 16 ∧ used (f.records cs) <+: beforeEnd (f.records cs) := by
  rw [listAllFilesInDir_eq hf hspc h hplain hfuel, ← shown_eq_used_iff]
  constructor
  · intro ⟨f', hlist⟩
    by_cases hfew : (shown (f.records cs)).length < 16
    · rw [if_pos hfew, Option.some.injEq, Prod.mk.injEq] at hlist
      have hlen := congrArg List.length hlist.1
      rw [List.length_map, List.length_map] at hlen
      have hsame := (shown_sublist_used (f.records cs)).eq_of_length hlen
      exact ⟨hsame ▸ hfew, hsame⟩
    · rw [if_neg hfew] at hlist
      cases hlist
  · intro ⟨hfew, hsame⟩
    rw [hsame, if_pos hfew]
    exact ⟨f, rfl⟩

end

/-- **When the two directory walkers agree**: exactly when fewer than 16 entries are not deleted, all the deleted ones
come after them, and their names are in upper case. -/
theorem walkersAgree_iff (toUppercase : List Char → List Char) (f : Fat32) (hf : f.Ready)
    (hspc : f.sectorsPerCluster = 1) (c : Nat) (cs : List Nat) (h : f.Chain c cs)
    (hplain : ∀ r ∈ beforeEnd (f.records cs), r.getD 11 0 ≠ 0x0F) :
    WalkersAgree toUppercase f c cs ↔ Listable toUppercase (f.records cs) := by
  constructor
  · intro ha
    obtain ⟨fuel₀, hlist⟩ := ha.lists
    obtain ⟨hfew, hlast⟩ := (Fat32.lists_iff hf hspc h hplain
      (show 16 < max fuel₀ 17 from Nat.le_max_right ..)).mp (hlist _ (Nat.le_max_left ..))
    refine ⟨hfew, hlast, fun r hr => ?_⟩
    obtain ⟨fuel₁, hfind⟩ := ha.finds r hr
    obtain ⟨q, -, hname, hq⟩ := hfind (max fuel₁ ((f.records cs).length + 1)) (Nat.le_max_left ..)
    rw [Fat32.findFile_scan hf hspc h hplain _ (Nat.le_max_right ..)] at hq
    exact (scan_some (Option.some.inj hq)).symm.trans hname
  · intro hp
    refine ⟨⟨17, fun fuel hle => ?_⟩, fun r hr => ⟨(f.records cs).length + 1, fun fuel hle => ?_⟩,
      fun name => ⟨(f.records cs).length + 1, fun fuel hle => Fat32.examine_inside hf hspc h name hle⟩⟩
    · exact (Fat32.lists_iff hf hspc h hplain hle).mpr ⟨hp.few, hp.last⟩
    · obtain ⟨q, hq, hname, hscan⟩ := scan_used hp.last hr (hp.upper r hr)
      exact ⟨q, hq, hname, by rw [Fat32.findFile_scan hf hspc h hplain _ hle, hscan]⟩

/-- on the root directory with `D` and `A` they agree -/
theorem walkersAgree_example : WalkersAgree upperAscii treeVolume 2 [2] := by
  have hused : used (treeVolume.records [2]) = [(treeFront 1).take 32, (treeFront 1).drop 32] := by decide +kernel
  have hbefore : beforeEnd (treeVolume.records [2]) = [(treeFront 1).take 32, (treeFront 1).drop 32] := by
    decide +kernel
  refine (walkersAgree_iff upperAscii treeVolume treeVolume_ready rfl 2 [2] (sampleTree.chain 2 (.inl rfl)) ?_).2
    ⟨?_, ?_, ?_⟩
  · rw [hbefore]
    decide
  · rw [hused]
    decide
  · exact ⟨[], by rw [hused, hbefore]; rfl⟩
  · rw [hused]
    decide

/-- a directory whose first entry is deleted, with the file `A` after it -/
def holedFront : Nat → List UInt8
  | 0 => treeFront 0
  | 1 => [0xE5, 32, 32, 32, 32, 32, 32, 32, 32, 32, 32, 0x20, 0, 0, 0, 0, 0, 0, 0, 0, 0, 0, 0, 0, 0, 0, 3, 0, 1, 0, 0,
      0, 65, 32, 32, 32, 32, 32, 32, 32, 32, 32, 32, 0x20, 0, 0, 0, 0, 0, 0, 0, 0, 0, 0, 0, 0, 0, 0, 4, 0, 1, 0, 0, 0]
  | _ => []

theorem length_holedFront : ∀ n, (holedFront n).length ≤ 512
  | 0 => by decide
  | 1 => by decide
  | _ + 2 => Nat.zero_le _

def holedDisk : Disk := ⟨fun n => Fat32.padded (holedFront n), fun n => Fat32.length_padded (length_holedFront n)⟩

def holedVolume : Fat32 := { treeVolume with disk := holedDisk }

theorem holedVolume_ready : holedVolume.Ready := ⟨rfl, le_rfl, by decide, List.length_replicate⟩

theorem holedVolume_chain : holedVolume.Chain 2 [2] := .last ⟨by decide, by decide, by decide⟩ (by decide)

/-- The listing stops at the deleted entry. -/
theorem walkers_differ : ¬ ∀ (toUppercase : List Char → List Char) (f : Fat32), f.Ready → f.sectorsPerCluster = 1 →
    ∀ (c : Nat) (cs : List Nat), f.Chain c cs → (∀ r ∈ beforeEnd (f.records cs), r.getD 11 0 ≠ 0x0F) →
    WalkersAgree toUppercase f c cs := by
  intro hall
  have hbefore : beforeEnd (holedVolume.records [2]) = [(holedFront 1).take 32, (holedFront 1).drop 32] := by
    decide +kernel
  have hused : used (holedVolume.records [2]) = [(holedFront 1).drop 32] := by decide +kernel
  have hplain : ∀ r ∈ beforeEnd (holedVolume.records [2]), r.getD 11 0 ≠ 0x0F := by
    rw [hbefore]
    decide
  obtain ⟨fuel₀, hlist⟩ := (hall upperAscii holedVolume holedVolume_ready rfl 2 [2] holedVolume_chain hplain).lists
  obtain ⟨-, hlast⟩ := (Fat32.lists_iff holedVolume_ready rfl holedVolume_chain hplain
    (show 16 < max fuel₀ 17 from Nat.le_max_right ..)).mp (hlist _ (Nat.le_max_left ..))
  rw [hused, hbefore] at hlast
  revert hlast
  decide

end Citron.Fs
