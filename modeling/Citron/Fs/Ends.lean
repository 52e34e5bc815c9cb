import Citron.Fs.Names
import Citron.Lib.Orbit

/-!
# Whether a lookup ends

The loop of `find_file` has no counter: it ends at an end mark, at a match, at the end of the chain or at a bad
cluster, all of which the disk decides.  Whatever the FAT says, the loop is at one of finitely many places when a round
begins; it ends exactly when it comes back to none of them.

* `getEntryFromPathTimed`   the lookup, with a panic told from a loop that has not ended yet;
* `look`                    a round of the loop, on the volume alone;
* `lookup_ends_iff`         when a lookup ends.
-/

namespace Citron.Fs
open Orbit

namespace Fat32

/-! ## panics and loops -/

section
variable (toUppercase : List Char → List Char)

/-- a round as a move: a panic leaves the loop as well -/
def Round.toMove : Option (List (List UInt8) × Round × Fat32) →
    Move (Cursor × Fat32) (Option (Option DirEntry × Fat32))
  | none => .stop none
  | some (_, .stop r, f) => .stop (some (r, f))
  | some (_, .go c, f) => .go (c, f)

def roundMove (name : List Char) (x : Cursor × Fat32) : Move (Cursor × Fat32) (Option (Option DirEntry × Fat32)) :=
  Round.toMove (findRound toUppercase name x.1 x.2)

/-- `find_file`: `none` as long as the loop has not ended, `some none` after a panic -/
def findFileTimed (fuel dirCluster : Nat) (name : List Char) (f : Fat32) : Option (Option (Option DirEntry × Fat32)) :=
  match f.readCluster dirCluster (List.replicate 512 0) with
  | none => some none
  | some buf => run (roundMove toUppercase name) fuel (⟨dirCluster, buf, 0⟩, f)

def walkPathTimed (fuel : Nat) : List (List Char) → Nat → Option DirEntry → Fat32 →
    Option (Option (Option DirEntry × Fat32))
  | [], _, currEntry, f => some (some (currEntry, f))
  | name :: names, cluster, currEntry, f =>
    if name.length = 0 then walkPathTimed fuel names cluster currEntry f
    else (findFileTimed toUppercase fuel cluster name f).bind fun
      | none => some none
      | some (some entry, f) => walkPathTimed fuel names entry.firstCluster (some entry) f
      | some (none, f) => some (some (none, f))

def getEntryFromPathTimed (fuel : Nat) (path : String) (f : Fat32) : Option (Option (Option DirEntry × Fat32)) :=
  walkPathTimed toUppercase fuel (path.toList.splitOn '/') f.rootDirFirstCluster none f

/-- `get_entry_from_path` comes to an end -/
def LookupEnds (path : String) (f : Fat32) : Prop := ∃ fuel, (getEntryFromPathTimed toUppercase fuel path f).isSome

theorem run_roundMove_join (name : List Char) (fuel : Nat) : ∀ (c : Cursor) (f : Fat32),
    (run (roundMove toUppercase name) fuel (c, f)).join = findLoop toUppercase name fuel c f := by
  induction fuel with
  | zero => exact fun _ _ => rfl
  | succ fuel ih =>
    intro c f
    rw [findLoop_succ]
    have hmove : roundMove toUppercase name (c, f) = Round.toMove (findRound toUppercase name c f) := rfl
    cases hround : findRound toUppercase name c f with
    | none =>
      rw [run_stop (hmove.trans (congrArg Round.toMove hround))]
      rfl
    | some x =>
      obtain ⟨seen, r | d, g⟩ := x
      · rw [run_stop (hmove.trans (congrArg Round.toMove hround))]
        rfl
      · rw [run_go (hmove.trans (congrArg Round.toMove hround))]
        exact ih d g

theorem findFileTimed_join (fuel dirCluster : Nat) (name : List Char) (f : Fat32) :
    (findFileTimed toUppercase fuel dirCluster name f).join = findFile toUppercase fuel dirCluster name f := by
  unfold findFileTimed findFile
  cases f.readCluster dirCluster (List.replicate 512 0) with
  | none => rfl
  | some buf => exact run_roundMove_join toUppercase name fuel _ f

theorem walkPathTimed_join (fuel : Nat) (names : List (List Char)) :
    ∀ (cluster : Nat) (curr : Option DirEntry) (f : Fat32),
    (walkPathTimed toUppercase fuel names cluster curr f).join = walkPath toUppercase fuel names cluster curr f := by
  induction names with
  | nil => exact fun _ _ _ => rfl
  | cons name names ih =>
    intro cluster curr f
    unfold walkPathTimed walkPath
    by_cases hname : name.length = 0
    · rw [if_pos hname, if_pos hname]
      exact ih cluster curr f
    · rw [if_neg hname, if_neg hname, ← findFileTimed_join]
      obtain _ | _ | ⟨_ | e, g⟩ := findFileTimed toUppercase fuel cluster name f
      · rfl
      · rfl
      · rfl
      · exact ih e.firstCluster (some e) g

/-- what the timed lookup returns is what the lookup returns -/
theorem getEntryFromPathTimed_join (fuel : Nat) (path : String) (f : Fat32) :
    (getEntryFromPathTimed toUppercase fuel path f).join = getEntryFromPath toUppercase fuel path f :=
  walkPathTimed_join toUppercase fuel _ _ _ f

variable {toUppercase}

theorem findFileTimed_mono {x : Option (Option DirEntry × Fat32)} {fuel fuel' dirCluster : Nat} {name : List Char}
    {f : Fat32} (hle : fuel ≤ fuel') (h : findFileTimed toUppercase fuel dirCluster name f = some x) :
    findFileTimed toUppercase fuel' dirCluster name f = some x := by
  unfold findFileTimed at h ⊢
  cases hread : f.readCluster dirCluster (List.replicate 512 0) with
  | none => rwa [hread] at h
  | some buf =>
    rw [hread] at h
    exact run_mono hle h

theorem walkPathTimed_mono {x : Option (Option DirEntry × Fat32)} {fuel fuel' : Nat} (hle : fuel ≤ fuel')
    (names : List (List Char)) : ∀ {cluster : Nat} {curr : Option DirEntry} {f : Fat32},
    walkPathTimed toUppercase fuel names cluster curr f = some x →
    walkPathTimed toUppercase fuel' names cluster curr f = some x := by
  induction names with
  | nil => exact fun h => h
  | cons name names ih =>
    intro cluster curr f h
    unfold walkPathTimed at h ⊢
    by_cases hname : name.length = 0
    · rw [if_pos hname] at h ⊢
      exact ih h
    · rw [if_neg hname] at h ⊢
      obtain ⟨y, hfind, h⟩ := Option.bind_eq_some_iff.mp h
      rw [findFileTimed_mono hle hfind, Option.bind_some]
      match y with
      | none => exact h
      | some (none, g) => exact h
      | some (some e, g) => exact ih h

end

/-! ## places -/

/-- where a round begins: a cluster and the index of an entry -/
structure Place where
  cluster : Nat
  index : Nat
deriving DecidableEq, Repr

/-- the record at a place -/
def record (f : Fat32) (p : Place) : List UInt8 := slice (p.index * 32) 32 (f.rawCluster p.cluster)

/-- the next place: none after the last one, and a bad cluster has no next place at all -/
def follow (f : Fat32) (p : Place) : Option (Option Place) :=
  if 16 ≤ p.index + 1 then (link (f.fatEntry p.cluster)).map fun next => next.map fun d => ⟨d, 0⟩
  else some (some ⟨p.cluster, p.index + 1⟩)

/-- on to the next place, if there is one -/
def onward (next : Option (Option Place)) (k : Place → Move Place (Option (Option DirEntry))) :
    Move Place (Option (Option DirEntry)) :=
  match next with
  | none => .stop none
  | some none => .stop (some none)
  | some (some q) => k q

section
variable (toUppercase : List Char → List Char) (name : List Char)

/-- a round, on the volume -/
def look (f : Fat32) (p : Place) : Move Place (Option (Option DirEntry)) :=
  if (f.record p).getD 0 0 = 0 then .stop (some none)
  else
    let lfn := (f.record p).getD 11 0 = 0x0F
    onward (if lfn then f.follow p else some (some p)) fun q =>
      if comparison toUppercase name (if lfn then some (f.record p) else none) (f.record q) then
        .stop (some (some (DirEntry.ofBytes (f.record q))))
      else onward (f.follow q) .go

end

variable {toUppercase : List Char → List Char} {name : List Char} {f : Fat32}

/-- the cursor stands at the place -/
structure Sees (f : Fat32) (x : Cursor × Fat32) (p : Place) : Prop where
  reads : f.Reads x.2
  cluster : x.1.dirCluster = p.cluster
  index : x.1.currIdx = p.index
  lt : p.index < 16
  buf : x.1.buf = f.rawCluster p.cluster

theorem Sees.entry {c : Cursor} {g : Fat32} {p : Place} (h : f.Sees (c, g) p) : c.entry = f.record p := by
  unfold Cursor.entry record
  rw [h.index, h.buf]

/-- the same result -/
def SameEnd (f : Fat32) : Option (Option DirEntry × Fat32) → Option (Option DirEntry) → Prop :=
  Option.Rel fun x r => x.1 = r ∧ f.Reads x.2

/-- `advance` goes to the next place -/
theorem advance_follow (hf : f.Ready) {c : Cursor} {g : Fat32} {p : Place}
    (h : f.Sees (c, g) p) :
    (g.advance c = none ∧ f.follow p = none) ∨
    (∃ g', f.Reads g' ∧ g.advance c = some (none, g') ∧ f.follow p = some none) ∨
    ∃ d g' q, f.Sees (d, g') q ∧ g.advance c = some (some d, g') ∧ f.follow p = some (some q) := by
  obtain ⟨hreads, hcluster, hindex, hlt, hbuf⟩ := h
  dsimp only at hreads hcluster hindex hbuf
  obtain ⟨b, hb, rfl⟩ := id hreads
  have hg := hf.reads hreads
  unfold advance follow
  rw [hindex, hcluster]
  by_cases hlast : 16 ≤ p.index + 1
  · have hnext := nextCluster_link_eq hg.sectorSize hg.buffer p.cluster
    have hlooked : f.Reads ((f.setBuffer b).looked p.cluster) :=
      ⟨_, (f.disk.length_sector _).trans hf.buffer.symm, rfl⟩
    dsimp only
    rw [if_pos hlast, if_pos hlast, hnext]
    rw [show (f.setBuffer b).fatEntry p.cluster = f.fatEntry p.cluster from rfl]
    match link (f.fatEntry p.cluster) with
    | none => exact .inl ⟨rfl, rfl⟩
    | some none => exact .inr (.inl ⟨_, hlooked, rfl, rfl⟩)
    | some (some d) =>
      have hlen : c.buf.length = ((f.setBuffer b).looked p.cluster).clusterSize := by
        rw [hbuf, length_rawCluster hf]
        rfl
      have hzero : (p.index + 1) % 16 = 0 := by omega
      refine .inr (.inr ⟨⟨d, f.rawCluster d, (p.index + 1) % 16⟩, _, ⟨d, 0⟩,
        ⟨hlooked, rfl, hzero, Nat.zero_lt_succ 15, rfl⟩, ?_, rfl⟩)
      show (((f.setBuffer b).looked p.cluster).readCluster d c.buf).map _ = _
      rw [readCluster_eq (hg.looked _) hlen]
      rfl
  · dsimp only
    rw [if_neg hlast, if_neg hlast]
    exact .inr (.inr ⟨⟨p.cluster, c.buf, p.index + 1⟩, f.setBuffer b, ⟨p.cluster, p.index + 1⟩,
      ⟨hreads, rfl, rfl, Nat.lt_of_not_le hlast, hbuf⟩, rfl, rfl⟩)

/-- the second half of a round -/
theorem close_look (hf : f.Ready) {d : Cursor} {g : Fat32} {q : Place}
    (h : f.Sees (d, g) q) (seen : List (List UInt8)) {found : Prop} [Decidable found] {lfn : Option (List UInt8)}
    (hfound : comparison toUppercase name lfn (f.record q) = true ↔
      found ∨ dirEntryName (DirEntry.ofBytes (f.record q)) = toUppercase name) :
    InStep f.Sees f.SameEnd
      (Round.toMove (if found then some (seen, .stop (some (DirEntry.ofBytes d.entry)), g)
        else if dirEntryName (DirEntry.ofBytes d.entry) = toUppercase name then
          some (seen, .stop (some (DirEntry.ofBytes d.entry)), g)
        else (g.advance d).map fun
          | (none, f) => (seen, .stop none, f)
          | (some c, f) => (seen, .go c, f)))
      (if comparison toUppercase name lfn (f.record q) then .stop (some (some (DirEntry.ofBytes (f.record q))))
        else onward (f.follow q) .go) := by
  rw [h.entry]
  by_cases hhit : comparison toUppercase name lfn (f.record q) = true
  · have hmove : InStep f.Sees f.SameEnd (.stop (some (some (DirEntry.ofBytes (f.record q)), g)))
        (.stop (some (some (DirEntry.ofBytes (f.record q))))) := .some ⟨rfl, h.reads⟩
    rw [if_pos hhit]
    by_cases hf' : found
    · rw [if_pos hf']
      exact hmove
    · rw [if_neg hf', if_pos ((hfound.mp hhit).resolve_left hf')]
      exact hmove
  · have hmiss := mt hfound.mpr hhit
    rw [if_neg hhit, if_neg fun h => hmiss (.inl h), if_neg fun h => hmiss (.inr h)]
    obtain ⟨hadv, hfollow⟩ | ⟨g', hr, hadv, hfollow⟩ | ⟨d', g', q', hsees, hadv, hfollow⟩ := advance_follow hf h
    · rw [hadv, hfollow]
      exact .none
    · rw [hadv, hfollow]
      exact .some ⟨rfl, hr⟩
    · rw [hadv, hfollow]
      exact hsees

/-- **A round is a look at the volume.** -/
theorem roundMove_look (hf : f.Ready) (x : Cursor × Fat32) (p : Place)
    (h : f.Sees x p) : InStep f.Sees f.SameEnd (roundMove toUppercase name x) (f.look toUppercase name p) := by
  obtain ⟨c, g⟩ := x
  unfold roundMove findRound look
  dsimp only
  rw [h.entry]
  by_cases hend : (f.record p).getD 0 0 = 0
  · rw [if_pos hend, if_pos hend]
    exact .some ⟨rfl, h.reads⟩
  rw [if_neg hend, if_neg hend]
  by_cases hlfn : (f.record p).getD 11 0 = 0x0F
  · have hfound : ∀ q, comparison toUppercase name (some (f.record p)) q = true ↔
        ((f.record p).getD 11 0 = 0x0F ∧ lfnToString (LFNEntry.ofBytes (f.record p)) = name) ∨
          dirEntryName (DirEntry.ofBytes q) = toUppercase name := by
      intro q
      rw [comparison_some, and_iff_right hlfn]
    rw [if_pos hlfn, if_pos hlfn, if_pos hlfn]
    obtain ⟨hadv, hfollow⟩ | ⟨g', hr, hadv, hfollow⟩ | ⟨d, g', q, hsees, hadv, hfollow⟩ := advance_follow hf h
    · rw [hadv, hfollow]
      exact .none
    · rw [hadv, hfollow]
      exact .some ⟨rfl, hr⟩
    · rw [hadv, hfollow]
      exact close_look hf hsees _ (hfound (f.record q))
  · rw [if_neg hlfn, if_neg hlfn, if_neg hlfn]
    refine close_look hf h _ ?_
    rw [comparison_none, or_iff_right fun h => hlfn h.1]

theorem findFileTimed_look (toUppercase : List Char → List Char) (name : List Char) (hf : f.Ready)
    (hspc : f.sectorsPerCluster = 1) {g : Fat32} (hr : f.Reads g) (fuel c : Nat) :
    Option.Rel f.SameEnd (findFileTimed toUppercase fuel c name g) (run (f.look toUppercase name) fuel ⟨c, 0⟩) := by
  obtain ⟨b, hb, rfl⟩ := id hr
  have hbuf : (List.replicate 512 (0 : UInt8)).length = (f.setBuffer b).clusterSize := by
    rw [List.length_replicate, (hf.reads hr).clusterSize_eq]
    show 512 = 512 * f.sectorsPerCluster
    rw [hspc]
  unfold findFileTimed
  rw [readCluster_eq (hf.reads hr) hbuf]
  exact run_related (roundMove_look hf) fuel ⟨hr, rfl, rfl, Nat.zero_lt_succ 15, rfl⟩

/-! ## finitely many places -/

/-- the places of a directory that starts at a cluster: the others have the number of a FAT entry -/
def Near (c : Nat) (p : Place) : Prop := (p.cluster = c ∨ p.cluster < 2^28) ∧ p.index < 16

theorem near_finite (c : Nat) : {p | Near c p}.Finite := by
  refine (Set.Finite.image (fun x : Nat × Nat => Place.mk x.1 x.2)
    (((Set.finite_lt_nat (2^28)).insert c).prod (Set.finite_lt_nat 16))).subset fun p hp => ?_
  exact ⟨(p.cluster, p.index), hp, rfl⟩

theorem near_follow {c : Nat} {p q : Place} (hp : Near c p) (h : f.follow p = some (some q)) : Near c q := by
  unfold follow at h
  by_cases hlast : 16 ≤ p.index + 1
  · rw [if_pos hlast] at h
    obtain ⟨next, hlink, h⟩ := Option.map_eq_some_iff.mp h
    obtain ⟨d, rfl, rfl⟩ := Option.map_eq_some_iff.mp h
    have hd : d = f.fatEntry p.cluster := by
      unfold link at hlink
      split at hlink
      · cases hlink
      · split at hlink
        · cases hlink
        · cases hlink
          rfl
    have hle : d ≤ 0x0FFFFFFF := by
      rw [hd]
      exact Nat.and_le_right
    exact ⟨.inr (Nat.lt_of_le_of_lt hle (by decide)), Nat.zero_lt_succ 15⟩
  · rw [if_neg hlast] at h
    cases h
    exact ⟨hp.1, Nat.lt_of_not_le hlast⟩

theorem onward_go {next : Option (Option Place)} {k : Place → Move Place (Option (Option DirEntry))} {p : Place}
    (h : onward next k = .go p) : ∃ q, next = some (some q) ∧ k q = .go p := by
  match next, h with
  | some (some q), h => exact ⟨q, rfl, h⟩

theorem near_look {c : Nat} (p q : Place) (hp : Near c p) (h : f.look toUppercase name p = .go q) : Near c q := by
  unfold look at h
  by_cases hend : (f.record p).getD 0 0 = 0
  · rw [if_pos hend] at h
    cases h
  rw [if_neg hend] at h
  dsimp only at h
  obtain ⟨m, hm, h⟩ := onward_go h
  have hnear : Near c m := by
    by_cases hlfn : (f.record p).getD 11 0 = 0x0F
    · rw [if_pos hlfn] at hm
      exact near_follow hp hm
    · rw [if_neg hlfn] at hm
      cases hm
      exact hp
  generalize (if (f.record p).getD 11 0 = 0x0F then some (f.record p) else none) = lfn at h
  by_cases hhit : comparison toUppercase name lfn (f.record m) = true
  · rw [if_pos hhit] at h
    cases h
  · rw [if_neg hhit] at h
    obtain ⟨m', hm', h⟩ := onward_go h
    cases h
    exact near_follow hnear hm'

/-- the loop over a directory ends exactly when it comes back to no place -/
theorem look_ends_iff (c : Nat) : Ends (f.look toUppercase name) ⟨c, 0⟩ ↔ ¬ ComesBack (f.look toUppercase name) ⟨c, 0⟩ :=
  ends_iff ((near_finite c).subset fun _ ⟨n, h⟩ =>
    after_invariant (Near c) near_look n ⟨.inl rfl, Nat.zero_lt_succ 15⟩ h)

/-! ## paths -/

/-- In the directory of each component the walk comes back to no place.  The directory of the next component is that
of the entry with which the walk stops. -/
def NeverBack (toUppercase : List Char → List Char) (f : Fat32) : List (List Char) → Nat → Prop
  | [], _ => True
  | name :: names, c =>
    if name.length = 0 then NeverBack toUppercase f names c
    else ¬ ComesBack (f.look toUppercase name) ⟨c, 0⟩ ∧
      ∀ n p e, after (f.look toUppercase name) n ⟨c, 0⟩ = some p →
        f.look toUppercase name p = .stop (some (some e)) → NeverBack toUppercase f names e.firstCluster

theorem findFileTimed_ends (hf : f.Ready) (hspc : f.sectorsPerCluster = 1) {g : Fat32} (hr : f.Reads g) (c : Nat) :
    (∃ fuel x, findFileTimed toUppercase fuel c name g = some x) ↔ Ends (f.look toUppercase name) ⟨c, 0⟩ := by
  have hrel := fun fuel => findFileTimed_look toUppercase name hf hspc hr fuel c
  constructor
  · intro ⟨fuel, x, h⟩
    obtain ⟨r, hrun, -⟩ := rel_some (h ▸ hrel fuel)
    exact ⟨fuel, Option.isSome_of_eq_some hrun⟩
  · intro ⟨fuel, h⟩
    obtain ⟨r, hrun⟩ := Option.isSome_iff_exists.mp h
    obtain ⟨x, hfind, -⟩ := rel_some' (hrun ▸ hrel fuel)
    exact ⟨fuel, x, hfind⟩

/-- the entry that is found is the one with which the walk stops -/
theorem findFileTimed_found (hf : f.Ready) (hspc : f.sectorsPerCluster = 1) {g g' : Fat32} (hr : f.Reads g)
    {fuel c : Nat} {e : DirEntry} (h : findFileTimed toUppercase fuel c name g = some (some (some e, g'))) :
    f.Reads g' ∧
      ∃ n p, after (f.look toUppercase name) n ⟨c, 0⟩ = some p ∧ f.look toUppercase name p = .stop (some (some e)) := by
  obtain ⟨r, hrun, hsame⟩ := rel_some (h ▸ findFileTimed_look toUppercase name hf hspc hr fuel c)
  obtain ⟨oe, rfl, rfl, hreads⟩ := rel_some hsame
  exact ⟨hreads, run_eq_some_iff.mp ⟨fuel, hrun⟩⟩

theorem findFileTimed_of_stop (hf : f.Ready) (hspc : f.sectorsPerCluster = 1) {g : Fat32} (hr : f.Reads g) {n c : Nat}
    {p : Place} {e : DirEntry} (hafter : after (f.look toUppercase name) n ⟨c, 0⟩ = some p)
    (hstop : f.look toUppercase name p = .stop (some (some e))) :
    ∃ fuel g', f.Reads g' ∧ findFileTimed toUppercase fuel c name g = some (some (some e, g')) := by
  obtain ⟨fuel, hrun⟩ := run_eq_some_iff.mpr ⟨n, p, hafter, hstop⟩
  obtain ⟨x, hfind, hsame⟩ :=
    rel_some' (hrun ▸ findFileTimed_look toUppercase name hf hspc hr fuel c)
  obtain ⟨⟨oe, g'⟩, rfl, rfl, hreads⟩ := rel_some' hsame
  exact ⟨fuel, g', hreads, hfind⟩

theorem walkPathTimed_cons {fuel c : Nat} {curr : Option DirEntry} {g : Fat32} {names : List (List Char)}
    (hname : ¬ name.length = 0) : walkPathTimed toUppercase fuel (name :: names) c curr g =
      (findFileTimed toUppercase fuel c name g).bind fun
        | none => some none
        | some (some entry, f) => walkPathTimed toUppercase fuel names entry.firstCluster (some entry) f
        | some (none, f) => some (some (none, f)) := by
  rw [walkPathTimed, if_neg hname]

/-- **The walk along a path ends exactly when in none of its directories it comes back to a place.** -/
theorem walkPathTimed_iff (hf : f.Ready) (hspc : f.sectorsPerCluster = 1) (names : List (List Char)) :
    ∀ (c : Nat) (curr : Option DirEntry) (g : Fat32), f.Reads g →
    ((∃ fuel x, walkPathTimed toUppercase fuel names c curr g = some x) ↔ NeverBack toUppercase f names c) := by
  induction names with
  | nil => exact fun _ _ _ _ => iff_of_true ⟨0, _, rfl⟩ trivial
  | cons name names ih =>
    intro c curr g hr
    unfold NeverBack
    by_cases hname : name.length = 0
    · unfold walkPathTimed
      rw [if_pos hname]
      simp only [if_pos hname]
      exact ih c curr g hr
    rw [if_neg hname, ← look_ends_iff, ← findFileTimed_ends hf hspc hr]
    constructor
    · intro ⟨fuel, x, hwalk⟩
      refine ⟨?_, fun n p e hafter hstop => ?_⟩
      · rw [walkPathTimed_cons hname] at hwalk
        obtain ⟨y, hfind, -⟩ := Option.bind_eq_some_iff.mp hwalk
        exact ⟨fuel, y, hfind⟩
      · obtain ⟨fuel', g', hr', hfind⟩ := findFileTimed_of_stop hf hspc hr hafter hstop
        have hlong := walkPathTimed_mono (Nat.le_max_left fuel fuel') _ hwalk
        rw [walkPathTimed_cons hname, findFileTimed_mono (Nat.le_max_right fuel fuel') hfind] at hlong
        exact (ih e.firstCluster (some e) g' hr').mp ⟨_, x, hlong⟩
    · intro ⟨⟨fuel, y, hfind⟩, hrest⟩
      match y with
      | none => exact ⟨fuel, none, by rw [walkPathTimed_cons hname, hfind]; rfl⟩
      | some (none, g') => exact ⟨fuel, some (none, g'), by rw [walkPathTimed_cons hname, hfind]; rfl⟩
      | some (some e, g') =>
        obtain ⟨hr', n, p, hafter, hstop⟩ := findFileTimed_found hf hspc hr hfind
        obtain ⟨fuel', x, hwalk⟩ := (ih e.firstCluster (some e) g' hr').mpr (hrest n p e hafter hstop)
        refine ⟨max fuel fuel', x, ?_⟩
        rw [walkPathTimed_cons hname, findFileTimed_mono (Nat.le_max_left fuel fuel') hfind]
        exact walkPathTimed_mono (Nat.le_max_right fuel fuel') names hwalk

end Fat32

/-- **When a lookup ends**: exactly when the walk of no directory on the path comes back to a place. -/
theorem lookup_ends_iff (toUppercase : List Char → List Char) (f : Fat32) (hf : f.Ready) (hspc : f.sectorsPerCluster = 1)
    (path : String) : Fat32.LookupEnds toUppercase path f ↔
      Fat32.NeverBack toUppercase f (path.toList.splitOn '/') f.rootDirFirstCluster := by
  refine Iff.trans ?_ (Fat32.walkPathTimed_iff hf hspc _ f.rootDirFirstCluster none f (Fat32.Reads.refl f))
  exact exists_congr fun fuel => Option.isSome_iff_exists

theorem lookup_ends_iff_example :
    Fat32.NeverBack upperAscii treeVolume ("d/.".toList.splitOn '/') treeVolume.rootDirFirstCluster :=
  (lookup_ends_iff upperAscii treeVolume treeVolume_ready rfl "d/.").1 ⟨2, by decide +kernel⟩

/-- The root directory is cluster 2, whose link is cluster 2 itself; all its entries are `AAAAAAAA.AAA`.  The FAT starts
at sector 32, the clusters at sector 2032. -/
def roundFront (n : Nat) : List UInt8 :=
  if n = 32 then [0, 0, 0, 0, 0, 0, 0, 0, 2] else if n = 2032 then List.replicate 512 65 else []

theorem length_roundFront (n : Nat) : (roundFront n).length ≤ 512 := by
  unfold roundFront
  split
  · decide
  · split
    · exact Nat.le_of_eq List.length_replicate
    · exact Nat.zero_le _

def roundVolume : Fat32 where
  disk := ⟨fun n => Fat32.padded (roundFront n), fun n => Fat32.length_padded (length_roundFront n)⟩
  buffer := List.replicate 512 0
  fatBegin := 32
  clusterBegin := 2032
  sectorsPerCluster := 1
  rootDirFirstCluster := 2
  sectorSize := 512

theorem roundVolume_ready : roundVolume.Ready := ⟨rfl, le_rfl, by decide, List.length_replicate⟩

theorem roundVolume_back : ComesBack (roundVolume.look upperAscii ['x']) ⟨2, 0⟩ :=
  ⟨0, 16, ⟨2, 0⟩, by decide, rfl, by decide +kernel⟩

/-- In that directory the search for another name goes round. -/
theorem lookup_never_ends : ¬ ∀ (toUppercase : List Char → List Char) (f : Fat32), f.Ready → f.sectorsPerCluster = 1 →
    ∀ path, Fat32.LookupEnds toUppercase path f := by
  intro hall
  obtain ⟨fuel, hends⟩ := hall upperAscii roundVolume roundVolume_ready rfl "x"
  have hback : ¬ ComesBack (roundVolume.look upperAscii ['x']) ⟨2, 0⟩ :=
    ((Fat32.walkPathTimed_iff roundVolume_ready rfl [['x']] 2 none roundVolume (Fat32.Reads.refl _)).mp
      ⟨fuel, Option.isSome_iff_exists.mp hends⟩).1
  exact hback roundVolume_back

end Citron.Fs
