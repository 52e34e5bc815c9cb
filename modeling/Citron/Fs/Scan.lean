import Citron.Fs.Tree

/-!
# Directory scans

The loop of `find_file` with the entries that it looks at.  An LFN entry and the entry after it are one round, wherever
the cluster ends.  The buffer of a directory has 512 bytes, whatever the size of a cluster.

* `findTrace`       the loop with its entries, `examine` for `find_file`;
* `browse`          the loop over a list of records, with `findTrace_browse` for the directory of a chain;
* `scans_iff`       the scan covers the directory exactly when a cluster is one sector.
-/

namespace Citron.Fs
namespace Fat32

section
variable (toUppercase : List Char → List Char) (fileName : List Char)

/-- the loop with the entries that it looks at, in order -/
def findTrace : Nat → Cursor → Fat32 → Option (List (List UInt8) × Option DirEntry × Fat32)
  | 0, _, _ => none
  | fuel + 1, c, f =>
    (findRound toUppercase fileName c f).bind fun
      | (seen, .stop r, f) => some (seen, r, f)
      | (seen, .go c, f) => (findTrace fuel c f).map fun (es, r, f) => (seen ++ es, r, f)

/-- `find_file` with the entries that it looks at -/
def examine (fuel dirCluster : Nat) (f : Fat32) : Option (List (List UInt8) × Option DirEntry × Fat32) :=
  (f.readCluster dirCluster (List.replicate 512 0)).bind fun buf =>
    findTrace toUppercase fileName fuel ⟨dirCluster, buf, 0⟩ f

theorem findTrace_snd (fuel : Nat) : ∀ (c : Cursor) (f : Fat32),
    (findTrace toUppercase fileName fuel c f).map Prod.snd = findLoop toUppercase fileName fuel c f := by
  induction fuel with
  | zero => exact fun _ _ => rfl
  | succ fuel ih =>
    intro c f
    rw [findLoop_succ]
    unfold findTrace
    cases findRound toUppercase fileName c f with
    | none => rfl
    | some x =>
      obtain ⟨seen, _ | c, f⟩ := x
      · rfl
      · show ((findTrace toUppercase fileName fuel c f).map _).map Prod.snd = findLoop toUppercase fileName fuel c f
        rw [Option.map_map, ← ih c f]
        rfl

/-- it is `find_file` -/
theorem examine_snd (fuel dirCluster : Nat) (f : Fat32) :
    (examine toUppercase fileName fuel dirCluster f).map Prod.snd
      = findFile toUppercase fuel dirCluster fileName f := by
  unfold examine findFile
  cases f.readCluster dirCluster (List.replicate 512 0) with
  | none => rfl
  | some buf => exact findTrace_snd toUppercase fileName fuel _ f

end

end Fat32

/-! ## the loop over records -/

section
variable (toUppercase : List Char → List Char) (name : List Char)

/-- the loop over a list of records: those it looks at, and the entry that it returns -/
def browse : List (List UInt8) → List (List UInt8) × Option DirEntry
  | [] => ([], none)
  | r :: rs =>
    if r.getD 0 0 = 0 then ([r], none)
    else if r.getD 11 0 = 0x0F then
      match rs with
      | [] => ([r], none)
      | q :: rs =>
        if lfnToString (LFNEntry.ofBytes r) = name ∨ dirEntryName (DirEntry.ofBytes q) = toUppercase name then
          ([r, q], some (DirEntry.ofBytes q))
        else (r :: q :: (browse rs).1, (browse rs).2)
    else if dirEntryName (DirEntry.ofBytes r) = toUppercase name then ([r], some (DirEntry.ofBytes r))
    else (r :: (browse rs).1, (browse rs).2)

variable {toUppercase name} {r q : List UInt8} {rs : List (List UInt8)}

theorem browse_end (hend : r.getD 0 0 = 0) : browse toUppercase name (r :: rs) = ([r], none) := by
  unfold browse
  rw [if_pos hend]

theorem browse_cut (hend : ¬ r.getD 0 0 = 0) (hlfn : r.getD 11 0 = 0x0F) :
    browse toUppercase name [r] = ([r], none) := by
  unfold browse
  rw [if_neg hend, if_pos hlfn]

theorem browse_pair_hit (hend : ¬ r.getD 0 0 = 0) (hlfn : r.getD 11 0 = 0x0F)
    (h : lfnToString (LFNEntry.ofBytes r) = name ∨ dirEntryName (DirEntry.ofBytes q) = toUppercase name) :
    browse toUppercase name (r :: q :: rs) = ([r, q], some (DirEntry.ofBytes q)) := by
  unfold browse
  rw [if_neg hend, if_pos hlfn]
  exact if_pos h

theorem browse_pair_miss (hend : ¬ r.getD 0 0 = 0) (hlfn : r.getD 11 0 = 0x0F)
    (h : ¬ (lfnToString (LFNEntry.ofBytes r) = name ∨ dirEntryName (DirEntry.ofBytes q) = toUppercase name)) :
    browse toUppercase name (r :: q :: rs)
      = (r :: q :: (browse toUppercase name rs).1, (browse toUppercase name rs).2) := by
  rw [browse.eq_def]
  dsimp only
  rw [if_neg hend, if_pos hlfn, if_neg h]

theorem browse_hit (hend : ¬ r.getD 0 0 = 0) (hlfn : ¬ r.getD 11 0 = 0x0F)
    (h : dirEntryName (DirEntry.ofBytes r) = toUppercase name) :
    browse toUppercase name (r :: rs) = ([r], some (DirEntry.ofBytes r)) := by
  unfold browse
  rw [if_neg hend, if_neg hlfn, if_pos h]

theorem browse_miss (hend : ¬ r.getD 0 0 = 0) (hlfn : ¬ r.getD 11 0 = 0x0F)
    (h : ¬ dirEntryName (DirEntry.ofBytes r) = toUppercase name) :
    browse toUppercase name (r :: rs)
      = (r :: (browse toUppercase name rs).1, (browse toUppercase name rs).2) := by
  rw [browse.eq_def]
  dsimp only
  rw [if_neg hend, if_neg hlfn, if_neg h]

/-- the records that are looked at are the first ones, in order -/
theorem browse_prefix (rs : List (List UInt8)) : (browse toUppercase name rs).1 <+: rs := by
  induction rs using browse.induct toUppercase name with
  | case1 => exact List.prefix_rfl
  | case2 r rs hend =>
    rw [browse_end hend]
    exact ⟨rs, rfl⟩
  | case3 r hend hlfn =>
    exact ⟨[], (List.append_nil _).trans (congrArg Prod.fst (browse_cut hend hlfn))⟩
  | case4 r hend hlfn q rs h =>
    rw [browse_pair_hit hend hlfn h]
    exact ⟨rs, rfl⟩
  | case5 r hend hlfn q rs h ih =>
    rw [browse_pair_miss hend hlfn h]
    exact List.cons_prefix_cons.mpr ⟨rfl, List.cons_prefix_cons.mpr ⟨rfl, ih⟩⟩
  | case6 r rs hend hlfn h =>
    rw [browse_hit hend hlfn h]
    exact ⟨rs, rfl⟩
  | case7 r rs hend hlfn h ih =>
    rw [browse_miss hend hlfn h]
    exact List.cons_prefix_cons.mpr ⟨rfl, ih⟩

/-- the records before the end mark -/
def beforeEnd (rs : List (List UInt8)) : List (List UInt8) := rs.takeWhile fun r => r.getD 0 0 ≠ 0

theorem beforeEnd_cons_end (hend : r.getD 0 0 = 0) : beforeEnd (r :: rs) = [] := by
  unfold beforeEnd
  rw [List.takeWhile_cons_of_neg (by simpa using hend)]

theorem beforeEnd_cons (hend : ¬ r.getD 0 0 = 0) : beforeEnd (r :: rs) = r :: beforeEnd rs := by
  unfold beforeEnd
  rw [List.takeWhile_cons_of_pos (by simpa using hend)]

/-- unless an entry is returned, all records before the end mark are looked at -/
theorem browse_none (rs : List (List UInt8)) : (browse toUppercase name rs).2 = none →
    beforeEnd rs <+: (browse toUppercase name rs).1 := by
  induction rs using browse.induct toUppercase name with
  | case1 => exact fun _ => List.prefix_rfl
  | case2 r rs hend =>
    intro _
    rw [beforeEnd_cons_end hend]
    exact List.nil_prefix
  | case3 r hend hlfn =>
    intro _
    rw [browse_cut hend hlfn, beforeEnd_cons hend]
    exact List.prefix_rfl
  | case4 r hend hlfn q rs h =>
    intro hnone
    rw [browse_pair_hit hend hlfn h] at hnone
    cases hnone
  | case5 r hend hlfn q rs h ih =>
    intro hnone
    rw [browse_pair_miss hend hlfn h] at hnone ⊢
    rw [beforeEnd_cons hend]
    refine List.cons_prefix_cons.mpr ⟨rfl, ?_⟩
    by_cases hq : q.getD 0 0 = 0
    · -- an end mark after an LFN entry is passed over
      rw [beforeEnd_cons_end hq]
      exact List.nil_prefix
    · rw [beforeEnd_cons hq]
      exact List.cons_prefix_cons.mpr ⟨rfl, ih hnone⟩
  | case6 r rs hend hlfn h =>
    intro hnone
    rw [browse_hit hend hlfn h] at hnone
    cases hnone
  | case7 r rs hend hlfn h ih =>
    intro hnone
    rw [browse_miss hend hlfn h] at hnone ⊢
    rw [beforeEnd_cons hend]
    exact List.cons_prefix_cons.mpr ⟨rfl, ih hnone⟩

/-- an entry that is returned is the last that is looked at -/
theorem browse_some (rs : List (List UInt8)) : ∀ e, (browse toUppercase name rs).2 = some e →
    ∃ es r, (browse toUppercase name rs).1 = es ++ [r] ∧ e = DirEntry.ofBytes r := by
  induction rs using browse.induct toUppercase name with
  | case1 =>
    intro e h
    cases h
  | case2 r rs hend =>
    intro e h
    rw [browse_end hend] at h
    cases h
  | case3 r hend hlfn =>
    intro e h
    rw [browse_cut hend hlfn] at h
    cases h
  | case4 r hend hlfn q rs hit =>
    intro e h
    rw [browse_pair_hit hend hlfn hit] at h ⊢
    cases h
    exact ⟨[r], q, rfl, rfl⟩
  | case5 r hend hlfn q rs miss ih =>
    intro e h
    rw [browse_pair_miss hend hlfn miss] at h ⊢
    obtain ⟨es, x, he, hx⟩ := ih e h
    exact ⟨r :: q :: es, x, by rw [he]; rfl, hx⟩
  | case6 r rs hend hlfn hit =>
    intro e h
    rw [browse_hit hend hlfn hit] at h ⊢
    cases h
    exact ⟨[], r, rfl, rfl⟩
  | case7 r rs hend hlfn miss ih =>
    intro e h
    rw [browse_miss hend hlfn miss] at h ⊢
    obtain ⟨es, x, he, hx⟩ := ih e h
    exact ⟨r :: es, x, by rw [he]; rfl, hx⟩

end

/-! ## the loop over a chain -/

namespace Fat32
variable {toUppercase : List Char → List Char} {name : List Char} {f : Fat32}

/-- the next record, in the cluster or in the next one -/
theorem advance_at {c : Cursor} {rest : List Nat} (hf : f.Ready) (h : c.At f rest) :
    (∃ f', f.Reads f' ∧ f.advance c = some (none, f') ∧ c.left f rest = [c.entry]) ∨
    ∃ f' c' rest', f.Reads f' ∧ f.advance c = some (some c', f') ∧ c'.At f' rest' ∧
      c.left f rest = c.entry :: c'.left f' rest' := by
  rw [Cursor.left_eq h]
  obtain ⟨f', hr, hadv, hnil⟩ | ⟨f', c', rest', hr, hadv, hat, hleft⟩ :=
    advanceWith_at hf (fun _ _ _ _ => rfl : ∀ f c buf, 2 ≤ c → readCluster f c buf = f.readCluster c buf) h
  · exact .inl ⟨f', hr, hadv, by rw [hnil]⟩
  · exact .inr ⟨f', c', rest', hr, hadv, hat, by rw [hleft]⟩

section
variable (toUppercase name)

/-- the end of a round that returns nothing: on to the next entry -/
def goOn (fuel : Nat) (seen : List (List UInt8)) (d : Cursor) (f : Fat32) :
    Option (List (List UInt8) × Option DirEntry × Fat32) :=
  (f.advance d).bind fun
    | (none, f) => some (seen, none, f)
    | (some c, f) => (findTrace toUppercase name fuel c f).map fun (es, r, f) => (seen ++ es, r, f)

/-- a round over an LFN entry -/
theorem findTrace_lfn {fuel : Nat} {c d : Cursor} {g : Fat32} (hend : ¬ c.entry.getD 0 0 = 0)
    (hlfn : c.entry.getD 11 0 = 0x0F) (hadv : f.advance c = some (some d, g)) :
    findTrace toUppercase name (fuel + 1) c f =
      if lfnToString (LFNEntry.ofBytes c.entry) = name ∨ dirEntryName (DirEntry.ofBytes d.entry) = toUppercase name then
        some ([c.entry, d.entry], some (DirEntry.ofBytes d.entry), g)
      else goOn toUppercase name fuel [c.entry, d.entry] d g := by
  unfold goOn
  rw [findTrace]
  unfold findRound
  rw [if_neg hend]
  dsimp only
  rw [if_pos hlfn, hadv]
  dsimp only [Option.bind_some]
  by_cases hfrag : lfnToString (LFNEntry.ofBytes c.entry) = name
  · rw [if_pos ⟨hlfn, hfrag⟩, if_pos hlfn, if_pos (Or.inl hfrag)]
    rfl
  · rw [if_neg fun h => hfrag h.2]
    by_cases hname : dirEntryName (DirEntry.ofBytes d.entry) = toUppercase name
    · rw [if_pos hname, if_pos hlfn, if_pos (Or.inr hname)]
      rfl
    · rw [if_neg hname, if_pos hlfn, if_neg (not_or.mpr ⟨hfrag, hname⟩)]
      cases g.advance d with
      | none => rfl
      | some x =>
        obtain ⟨_ | c, g⟩ := x
        · rfl
        · rfl

/-- a round over another entry -/
theorem findTrace_entry {fuel : Nat} {c : Cursor} (hend : ¬ c.entry.getD 0 0 = 0) (hlfn : ¬ c.entry.getD 11 0 = 0x0F) :
    findTrace toUppercase name (fuel + 1) c f =
      if dirEntryName (DirEntry.ofBytes c.entry) = toUppercase name then
        some ([c.entry], some (DirEntry.ofBytes c.entry), f)
      else goOn toUppercase name fuel [c.entry] c f := by
  unfold goOn
  rw [findTrace]
  unfold findRound
  rw [if_neg hend]
  dsimp only
  rw [if_neg hlfn]
  dsimp only [Option.bind_some]
  rw [if_neg fun h => hlfn h.1]
  by_cases hname : dirEntryName (DirEntry.ofBytes c.entry) = toUppercase name
  · rw [if_pos hname, if_pos hname, if_neg hlfn]
    rfl
  · rw [if_neg hname, if_neg hname, if_neg hlfn]
    cases f.advance c with
    | none => rfl
    | some x =>
      obtain ⟨_ | c, g⟩ := x
      · rfl
      · rfl

end

/-- **The loop goes through the records of the chain**, in rounds of one or two. -/
theorem findTrace_browse : ∀ {fuel : Nat} {f : Fat32} {c : Cursor} {rest : List Nat}, f.Ready → c.At f rest →
    (c.left f rest).length < fuel → ∃ f', f.Reads f' ∧ findTrace toUppercase name fuel c f
      = some ((browse toUppercase name (c.left f rest)).1, (browse toUppercase name (c.left f rest)).2, f') := by
  intro fuel
  induction fuel with
  | zero => intro f c rest _ _ h; exact absurd h (Nat.not_lt_zero _)
  | succ fuel ih =>
    -- the records after the round
    have next : ∀ {f : Fat32} {d : Cursor} {rest : List Nat} (seen : List (List UInt8)), f.Ready → d.At f rest →
        (d.left f rest).length ≤ fuel → ∃ f', f.Reads f' ∧ goOn toUppercase name fuel seen d f
          = some (seen ++ (browse toUppercase name (d.left f rest).tail).1,
              (browse toUppercase name (d.left f rest).tail).2, f') := by
      intro f d rest seen hf hat hle
      unfold goOn
      obtain ⟨f', hr, hadv, hleft⟩ | ⟨f', c', rest', hr, hadv, hat', hleft⟩ := advance_at hf hat
      · rw [hadv, hleft]
        refine ⟨f', hr, ?_⟩
        show some (seen, none, f') = some (seen ++ [], none, f')
        rw [List.append_nil]
      · rw [hleft, List.length_cons] at hle
        obtain ⟨f'', hr', hloop⟩ := ih (hf.reads hr) hat' hle
        rw [hadv, hleft, Option.bind_some]
        dsimp only
        rw [hloop]
        exact ⟨f'', hr.trans hr', rfl⟩
    intro f c rest hf hat hfuel
    have hle : (c.left f rest).length ≤ fuel := Nat.le_of_lt_succ hfuel
    by_cases hend : c.entry.getD 0 0 = 0
    · rw [Cursor.left_eq hat, browse_end hend]
      unfold findTrace findRound
      rw [if_pos hend]
      exact ⟨f, Reads.refl f, rfl⟩
    by_cases hlfn : c.entry.getD 11 0 = 0x0F
    · obtain ⟨f', hr, hadv, hleft⟩ | ⟨f', d, rest', hr, hadv, hat', hleft⟩ := advance_at hf hat
      · -- the directory ends with the LFN entry
        rw [hleft, browse_cut hend hlfn]
        unfold findTrace findRound
        rw [if_neg hend]
        dsimp only
        rw [if_pos hlfn, hadv]
        exact ⟨f', hr, rfl⟩
      rw [findTrace_lfn toUppercase name hend hlfn hadv, hleft]
      rw [hleft, List.length_cons] at hle
      obtain ⟨f'', hr', hnext⟩ := next [c.entry, d.entry] (hf.reads hr) hat' (by omega)
      rw [Cursor.left_eq hat', List.tail_cons] at hnext
      rw [Cursor.left_eq hat']
      by_cases hit : lfnToString (LFNEntry.ofBytes c.entry) = name ∨
          dirEntryName (DirEntry.ofBytes d.entry) = toUppercase name
      · rw [if_pos hit, browse_pair_hit hend hlfn hit]
        exact ⟨f', hr, rfl⟩
      · rw [if_neg hit, browse_pair_miss hend hlfn hit, hnext]
        exact ⟨f'', hr.trans hr', rfl⟩
    · obtain ⟨f', hr, hnext⟩ := next [c.entry] hf hat hle
      rw [Cursor.left_eq hat, List.tail_cons] at hnext
      rw [findTrace_entry toUppercase name hend hlfn, Cursor.left_eq hat]
      by_cases hit : dirEntryName (DirEntry.ofBytes c.entry) = toUppercase name
      · rw [if_pos hit, browse_hit hend hlfn hit]
        exact ⟨f, Reads.refl f, rfl⟩
      · rw [if_neg hit, browse_miss hend hlfn hit, hnext]
        exact ⟨f', hr, rfl⟩

/-- `find_file` on a directory of clusters of one sector -/
theorem examine_browse (toUppercase : List Char → List Char) (name : List Char) (hf : f.Ready)
    (hspc : f.sectorsPerCluster = 1) {c : Nat} {cs : List Nat} (h : f.Chain c cs) {fuel : Nat}
    (hfuel : (f.records cs).length < fuel) : ∃ f', f.Reads f' ∧ examine toUppercase name fuel c f
      = some ((browse toUppercase name (f.records cs)).1, (browse toUppercase name (f.records cs)).2, f') := by
  obtain ⟨rest, rfl⟩ : ∃ rest, cs = c :: rest := by
    cases h with
    | last _ _ => exact ⟨[], rfl⟩
    | link _ _ _ => exact ⟨_, rfl⟩
  have hbuf : (List.replicate 512 (0 : UInt8)).length = f.clusterSize := by
    rw [List.length_replicate, hf.clusterSize_eq, hspc]
  have hat : Cursor.At f ⟨c, f.clusterBytes c, 0⟩ rest := ⟨h, rfl, Nat.zero_lt_succ _⟩
  unfold examine
  rw [readCluster_eq hf hbuf, Option.bind_some, rawCluster_eq h.inData]
  exact findTrace_browse hf hat hfuel

/-! ## what a scan covers -/

/-- the 32-byte records of every cluster of a chain -/
def allRecords (f : Fat32) (cs : List Nat) : List (List UInt8) :=
  cs.flatMap fun c => (List.range (16 * f.sectorsPerCluster)).map fun i => slice (i * 32) 32 (f.clusterBytes c)

theorem allRecords_eq (hspc : f.sectorsPerCluster = 1) (cs : List Nat) : f.allRecords cs = f.records cs := by
  unfold allRecords records entriesOf
  rw [hspc]

/-- The scan of a directory ends and stays in its buffer.  It looks at the records of the clusters in order, each once;
at all those before the end mark, unless it returns the last that it has looked at. -/
def Scans (toUppercase : List Char → List Char) (f : Fat32) (c : Nat) (cs : List Nat) (name : List Char) : Prop :=
  ∃ fuel₀, ∀ fuel, fuel₀ ≤ fuel → ∃ es r f', examine toUppercase name fuel c f = some (es, r, f') ∧
    es <+: f.allRecords cs ∧ (r = none → beforeEnd (f.allRecords cs) <+: es) ∧
    ∀ e, r = some e → ∃ before last, es = before ++ [last] ∧ e = DirEntry.ofBytes last

theorem scans_of_one (hf : f.Ready) (hspc : f.sectorsPerCluster = 1) {c : Nat} {cs : List Nat} (h : f.Chain c cs) :
    Scans toUppercase f c cs name := by
  refine ⟨(f.records cs).length + 1, fun fuel hle => ?_⟩
  obtain ⟨f', -, he⟩ := examine_browse toUppercase name hf hspc h hle
  rw [allRecords_eq hspc]
  exact ⟨_, _, f', he, browse_prefix _, browse_none _, browse_some _⟩

/-- the second sector of a cluster has no place in the buffer -/
theorem readCluster_small (hs : f.sectorSize = 512) (hspc : 2 ≤ f.sectorsPerCluster) (c : Nat) {buffer : List UInt8}
    (hb : buffer.length = 512) : f.readCluster c buffer = none := by
  let step := fun (b : List UInt8) (i : Nat) =>
    if u32 (i * f.sectorSize) ≤ b.length then
      (f.readSector (u32 (f.sectorOfCluster c + i)) (b.drop (u32 (i * f.sectorSize)))).map
        fun s => b.take (u32 (i * f.sectorSize)) ++ s
    else none
  have hstart : u32 (0 * f.sectorSize) = 0 ∧ u32 (1 * f.sectorSize) = 512 := by
    rw [hs]
    exact ⟨rfl, rfl⟩
  have hfirst : step buffer 0 = some (f.disk.sector (u32 (f.sectorOfCluster c + 0))) := by
    show (if u32 (0 * f.sectorSize) ≤ _ then _ else none) = _
    rw [hstart.1, if_pos (Nat.zero_le _), List.drop_zero, List.take_zero, readSector_eq hs (Nat.le_of_eq hb.symm),
      List.drop_of_length_le (Nat.le_of_eq hb), List.append_nil]
    rfl
  have hsecond : ∀ n, step (f.disk.sector n) 1 = none := by
    intro n
    have hlen : (f.disk.sector n).length = 512 := f.disk.length_sector n
    show (if u32 (1 * f.sectorSize) ≤ _ then _ else none) = _
    rw [hstart.2, if_pos (Nat.le_of_eq hlen.symm), List.drop_of_length_le (Nat.le_of_eq hlen)]
    unfold readSector
    rw [hs]
    rfl
  obtain ⟨k, hk⟩ : ∃ k, f.sectorsPerCluster = 2 + k := ⟨f.sectorsPerCluster - 2, by omega⟩
  show (List.range f.sectorsPerCluster).foldlM step buffer = none
  rw [hk, List.range_add, List.foldlM_append]
  show ((step buffer 0).bind fun b => (step b 1).bind some).bind _ = none
  rw [hfirst, Option.bind_some, hsecond]
  rfl

end Fat32

/-- **Which cluster sizes directory scans fit**: one sector.  From two sectors on, the first cluster is already larger
than the buffer. -/
theorem scans_iff (toUppercase : List Char → List Char) (f : Fat32) (hf : f.Ready) (c : Nat) (cs : List Nat)
    (h : f.Chain c cs) (name : List Char) : Fat32.Scans toUppercase f c cs name ↔ f.sectorsPerCluster = 1 := by
  constructor
  · intro ⟨fuel₀, hscan⟩
    by_contra hspc
    have hone := hf.one_le
    obtain ⟨es, r, f', he, -⟩ := hscan fuel₀ le_rfl
    unfold Fat32.examine at he
    rw [Fat32.readCluster_small hf.sectorSize (by omega) c List.length_replicate] at he
    cases he
  · exact fun hspc => Fat32.scans_of_one hf hspc h

theorem scans_iff_example : Fat32.Scans upperAscii treeVolume 2 [2] ['d'] :=
  (scans_iff upperAscii treeVolume treeVolume_ready 2 [2] (sampleTree.chain 2 (.inl rfl)) ['d']).2 rfl

/-- With two sectors in a cluster no directory is read. -/
theorem scan_overruns : ¬ ∀ (toUppercase : List Char → List Char) (f : Fat32), f.Ready → ∀ (c : Nat) (cs : List Nat),
    f.Chain c cs → ∀ name, Fat32.Scans toUppercase f c cs name := by
  intro hall
  let f : Fat32 := { treeVolume with sectorsPerCluster := 2 }
  have hf : f.Ready := ⟨rfl, by decide, by decide, List.length_replicate⟩
  have hchain : f.Chain 2 [2] := .last ⟨by decide, by decide, by decide⟩ (by decide)
  obtain ⟨fuel₀, hscan⟩ := hall upperAscii f hf 2 [2] hchain ['d']
  obtain ⟨es, r, f', he, -⟩ := hscan fuel₀ le_rfl
  unfold Fat32.examine at he
  rw [Fat32.readCluster_small hf.sectorSize le_rfl 2 List.length_replicate] at he
  cases he

end Citron.Fs
