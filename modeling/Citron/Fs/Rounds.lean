import Citron.Fs.Read
import Citron.Lib.Counter
import Citron.Lib.Orbit

/-!
# The rounds of `read_at`

The loop of `read_at` looks at the bytes that it has read, which stay the same while it passes over the clusters before
the offset.  It counts the clusters in a `u32`, and compares the count with the offset in every round: where the count
comes back to 0 while bytes are missing, clusters are passed over again.

* `readRounds`          the loop, with the number of its rounds;
* `ReadState.turns`     the rounds that are left, if the chain of clusters does not end;
* `readRounds_ends`     the loop ends within them, whatever the FAT says;
* `reads_in_time_iff`   when it ends within a round for each cluster before the offset and for each one that is copied.
-/

namespace Citron.Fs
open Orbit Counter

/-- the variables of `read_at` at the head of its loop -/
structure ReadState where
  cluster : Nat
  offsetByte : Nat
  readBytes : Nat
  readClusters : Nat
  tmpBuf : List UInt8
  buffer : List UInt8
  f : Fat32

namespace Fat32

/-- what `read_at` returns, with the buffer and the state; `none` is a panic -/
abbrev ReadResult := Option (Nat × List UInt8 × Fat32)

/-- the body of the loop of `read_at` -/
def readRound (offsetCluster : Nat) (s : ReadState) : Move ReadState ReadResult :=
  if s.readClusters < offsetCluster then
    match s.f.nextCluster s.cluster with
    | some (some clusNum, f) =>
      .go { s with cluster := clusNum, readClusters := u32 (s.readClusters + 1), f := f }
    | some (none, f) => .stop (some (s.readBytes, s.buffer, f))
    | none => .stop none
  else
    match s.f.readTmp s.cluster s.tmpBuf with
    | some tmpBuf =>
      let count := min (s.f.clusterSize - s.offsetByte) (s.buffer.length - s.readBytes)
      let buffer := s.buffer.take s.readBytes ++ slice s.offsetByte count tmpBuf ++ s.buffer.drop (s.readBytes + count)
      match s.f.nextCluster s.cluster with
      | some (some clusNum, f) =>
        .go ⟨clusNum, 0, s.readBytes + count, u32 (s.readClusters + 1), tmpBuf, buffer, f⟩
      | some (none, f) => .stop (some (s.readBytes + count, buffer, f))
      | none => .stop none
    | none => .stop none

/-- the loop with the number of its rounds -/
def readRounds (offsetCluster : Nat) : Nat → ReadState → Option (Nat × ReadResult)
  | 0, _ => none
  | fuel + 1, s =>
    if s.readBytes < s.buffer.length then
      match readRound offsetCluster s with
      | .stop r => some (1, r)
      | .go s => (readRounds offsetCluster fuel s).map fun (n, r) => (n + 1, r)
    else some (0, some (s.readBytes, s.buffer, s.f))

/-- it is the loop -/
theorem readRounds_readLoop (oc fuel : Nat) : ∀ s : ReadState, (readRounds oc fuel s).bind (·.2)
    = readLoop oc fuel s.cluster s.offsetByte s.readBytes s.readClusters s.tmpBuf s.buffer s.f := by
  induction fuel with
  | zero => exact fun _ => rfl
  | succ fuel ih =>
    intro s
    unfold readRounds readLoop
    by_cases hlt : s.readBytes < s.buffer.length
    · rw [if_pos hlt, if_pos hlt]
      have hgo : ∀ t, ((readRounds oc fuel t).map fun (n, r) => (n + 1, r)).bind (·.2)
          = (readRounds oc fuel t).bind (·.2) := by
        intro t
        rw [Option.bind_map]
        rfl
      by_cases hskip : s.readClusters < oc
      · unfold readRound
        rw [if_pos hskip, if_pos hskip]
        generalize s.f.nextCluster s.cluster = next
        obtain _ | ⟨_ | d, f⟩ := next
        · rfl
        · rfl
        · exact (hgo _).trans (ih _)
      · unfold readRound
        rw [if_neg hskip, if_neg hskip]
        generalize s.f.readTmp s.cluster s.tmpBuf = read
        generalize s.f.nextCluster s.cluster = next
        obtain _ | tmp := read
        · rfl
        · obtain _ | ⟨_ | d, f⟩ := next
          · rfl
          · rfl
          · exact (hgo _).trans (ih _)
    · rw [if_neg hlt, if_neg hlt]
      rfl

/-- `read_at` before its loop, on the file that starts at `cluster` -/
def readStart (f : Fat32) (cluster offset : Nat) (buffer : List UInt8) : ReadState :=
  ⟨cluster, u32 offset % f.clusterSize, 0, 0, List.replicate (f.sectorSize * f.sectorsPerCluster) 0, buffer, f⟩

/-- `read_at` after the path, with the number of the rounds; the division by the size of a cluster comes before them -/
def readEntryRounds (fuel cluster : Nat) (buffer : List UInt8) (offset : Nat) (f : Fat32) : Option (Nat × ReadResult) :=
  if f.clusterSize = 0 then some (0, none)
  else readRounds (u32 offset / f.clusterSize) fuel (f.readStart cluster offset buffer)

theorem readEntryRounds_readEntry (fuel : Nat) (entry : DirEntry) (buffer : List UInt8) (offset : Nat) (f : Fat32) :
    (readEntryRounds fuel entry.firstCluster buffer offset f).bind (·.2) = f.readEntry fuel entry buffer offset := by
  unfold readEntryRounds readEntry
  split
  · rfl
  · exact readRounds_readLoop _ fuel (f.readStart entry.firstCluster offset buffer)

/-! ## sizes -/

theorem map_rel {α β γ δ : Type} {R : α → β → Prop} {S : γ → δ → Prop} {x : Option α} {y : Option β} {g : α → γ}
    {g' : β → δ} (h : Option.Rel R x y) (hg : ∀ a b, R a b → S (g a) (g' b)) : Option.Rel S (x.map g) (y.map g') := by
  cases h with
  | none => exact .none
  | some h => exact .some (hg _ _ h)

/-- the rounds of two loops, side by side -/
theorem foldlM_rel {α β γ : Type} {step : β → α → Option β} {step' : γ → α → Option γ} {R : β → γ → Prop} (l : List α)
    (hstep : ∀ a b c, R b c → Option.Rel R (step b a) (step' c a)) :
    ∀ {b : β} {c : γ}, R b c → Option.Rel R (l.foldlM step b) (l.foldlM step' c) := by
  induction l with
  | nil => exact fun h => .some h
  | cons a l ih =>
    intro b c h
    rw [List.foldlM_cons, List.foldlM_cons]
    have hrel := hstep a b c h
    generalize step b a = x at hrel ⊢
    generalize step' c a = y at hrel ⊢
    cases hrel with
    | none => exact .none
    | some h => exact ih h

def SameLength (n : Nat) (b b' : List UInt8) : Prop := b.length = n ∧ b'.length = n

theorem disk_readSector_rel (d : Disk) {n i j : Nat} {b b' : List UInt8} (h : SameLength n b b') :
    Option.Rel (SameLength n) (d.readSector i b) (d.readSector j b') := by
  obtain ⟨rfl, h⟩ := h
  unfold Disk.readSector
  rw [h]
  split
  · refine .some ⟨?_, ?_⟩
    · rw [List.length_append, d.length_sector, List.length_drop]
      omega
    · rw [List.length_append, d.length_sector, List.length_drop]
      omega
  · exact .none

/-- whether `read_cluster` panics depends on sizes only -/
theorem readCluster_rel (f : Fat32) {n c c' : Nat} {b b' : List UInt8} (h : SameLength n b b') :
    Option.Rel (SameLength n) (f.readCluster c b) (f.readCluster c' b') := by
  refine foldlM_rel _ (fun i b b' h => ?_) h
  obtain ⟨rfl, h⟩ := h
  dsimp only
  rw [h]
  split
  · have hdrop : SameLength (b.length - u32 (i * f.sectorSize)) (b.drop (u32 (i * f.sectorSize)))
        (b'.drop (u32 (i * f.sectorSize))) := ⟨List.length_drop, by rw [List.length_drop, h]⟩
    have hrel : Option.Rel (SameLength (b.length - u32 (i * f.sectorSize)))
        (f.readSector (u32 (f.sectorOfCluster c + i)) (b.drop (u32 (i * f.sectorSize))))
        (f.readSector (u32 (f.sectorOfCluster c' + i)) (b'.drop (u32 (i * f.sectorSize)))) :=
      foldlM_rel _ (fun _ _ _ h => disk_readSector_rel f.disk h) hdrop
    refine map_rel hrel fun s s' hs => ?_
    obtain ⟨hs, hs'⟩ := hs
    constructor
    · rw [List.length_append, List.length_take, hs]
      omega
    · rw [List.length_append, List.length_take, hs']
      omega
  · exact .none

theorem readTmp_rel (f : Fat32) {n c c' : Nat} {b b' : List UInt8} (h : SameLength n b b') :
    Option.Rel (SameLength n) (f.readTmp c b) (f.readTmp c' b') := by
  obtain ⟨rfl, h⟩ := h
  have htake : SameLength (min f.clusterSize b.length) (b.take f.clusterSize) (b'.take f.clusterSize) :=
    ⟨List.length_take, by rw [List.length_take, h]⟩
  have hrel : Option.Rel _ (f.readCluster c _) (f.readCluster c' _) := f.readCluster_rel htake
  refine map_rel hrel fun s s' hs => ?_
  obtain ⟨hs, hs'⟩ := hs
  constructor
  · rw [List.length_append, List.length_drop, hs]
    omega
  · rw [List.length_append, List.length_drop, hs', h]
    omega

/-- `read_cluster` does not panic in the temporary buffer -/
def Readable (f : Fat32) : Prop := (f.readTmp 0 (List.replicate (f.sectorSize * f.sectorsPerCluster) 0)).isSome

section
variable {f g g' : Fat32} {c d : Nat} {tmp tmp' : List UInt8}

theorem length_readTmp (h : f.readTmp c tmp = some tmp') : tmp'.length = tmp.length := by
  have hrel : Option.Rel (SameLength tmp.length) (f.readTmp c tmp) (f.readTmp c tmp) := f.readTmp_rel ⟨rfl, rfl⟩
  rw [h] at hrel
  cases hrel with
  | some h => exact h.1

theorem readTmp_isSome_iff (htmp : tmp.length = f.sectorSize * f.sectorsPerCluster) :
    (f.readTmp c tmp).isSome ↔ f.Readable := by
  have hrel : Option.Rel _ (f.readTmp c tmp) (f.readTmp 0 (List.replicate (f.sectorSize * f.sectorsPerCluster) 0)) :=
    f.readTmp_rel ⟨htmp, List.length_replicate⟩
  unfold Readable
  generalize f.readTmp c tmp = x at hrel ⊢
  generalize f.readTmp 0 _ = y at hrel ⊢
  cases hrel with
  | none => rfl
  | some _ => rfl

/-! ## the links -/

/-- a look at the FAT writes the first sector of the buffer -/
def Peeks (f g : Fat32) : Prop :=
  ∃ b, b.length = f.buffer.length ∧ b.drop 512 = f.buffer.drop 512 ∧ g = f.setBuffer b

theorem Peeks.refl (f : Fat32) : f.Peeks f := ⟨f.buffer, rfl, rfl, rfl⟩

theorem Peeks.clusterSize (h : f.Peeks g) : g.clusterSize = f.clusterSize := by
  obtain ⟨b, -, -, rfl⟩ := h
  rfl

theorem Peeks.readTmp (h : f.Peeks g) (c : Nat) (tmp : List UInt8) : g.readTmp c tmp = f.readTmp c tmp := by
  obtain ⟨b, -, -, rfl⟩ := h
  rfl

/-- the next look does not see the last one -/
theorem Peeks.nextCluster (h : f.Peeks g) (c : Nat) : g.nextCluster c = f.nextCluster c := by
  obtain ⟨b, hlen, hdrop, rfl⟩ := h
  have hread : ∀ n, (f.setBuffer b).disk.readSector n (f.setBuffer b).buffer = f.disk.readSector n f.buffer := by
    intro n
    show f.disk.readSector n b = _
    unfold Disk.readSector
    rw [hlen, hdrop]
  unfold Fat32.nextCluster
  dsimp only
  rw [hread]
  rfl

end

/-- from a cluster to the next one -/
def nextMove (f : Fat32) (c : Nat) : Move Nat Unit :=
  match f.nextCluster c with
  | some (some clusNum, _) => .go clusNum
  | _ => .stop ()

section
variable {f g : Fat32} {c d : Nat}

theorem nextCluster_peeks {next : Option Nat} (h : f.nextCluster c = some (next, g)) : f.Peeks g := by
  obtain ⟨b, hlen, hdrop, hb, -⟩ := nextCluster_spec h
  exact ⟨b, hlen, hdrop, hb⟩

theorem nextMove_go (h : f.nextCluster c = some (some d, g)) : f.nextMove c = .go d := by
  unfold nextMove
  rw [h]

theorem nextMove_end (h : f.nextCluster c = some (none, g)) : f.nextMove c = .stop () := by
  unfold nextMove
  rw [h]

theorem nextMove_panic (h : f.nextCluster c = none) : f.nextMove c = .stop () := by
  unfold nextMove
  rw [h]

theorem nextMove_lt (h : f.nextMove c = .go d) : d < 2^28 := by
  unfold nextMove at h
  split at h
  · rename_i hnext
    cases h
    obtain ⟨-, -, -, -, hlt⟩ := nextCluster_spec hnext
    exact hlt d rfl
  · cases h

/-- a chain that ends is short -/
theorem run_nextMove (h : Ends f.nextMove c) : (run f.nextMove (2^28 + 1) c).isSome := by
  have hvisit : ∀ n b, after f.nextMove n c = some b → b ∈ insert c (Finset.range (2^28)) := by
    intro n b hb
    refine after_invariant (· ∈ insert c (Finset.range (2^28))) (fun _ _ _ hgo => ?_) n (Finset.mem_insert_self _ _) hb
    exact Finset.mem_insert_of_mem (Finset.mem_range.mpr (nextMove_lt hgo))
  have hcard : (insert c (Finset.range (2^28))).card ≤ 2^28 + 1 :=
    (Finset.card_insert_le _ _).trans_eq (congrArg (· + 1) (Finset.card_range _))
  obtain ⟨r, hr⟩ := Option.isSome_iff_exists.mp (h.run_card hvisit)
  rw [run_mono hcard hr]
  rfl

end

/-- the clusters that `n` bytes take -/
def clustersFor (f : Fat32) (n : Nat) : Nat := (n + f.clusterSize - 1) / f.clusterSize

end Fat32

namespace ReadState
open Fat32

/-- what holds at the head of the loop: `f` is the volume and `len` the length of the buffer -/
structure Good (f : Fat32) (len : Nat) (s : ReadState) : Prop where
  volume : f.Peeks s.f
  offsetByte : s.offsetByte < f.clusterSize
  readClusters : s.readClusters < 2^32
  tmpBuf : s.tmpBuf.length = f.sectorSize * f.sectorsPerCluster
  buffer : s.buffer.length = len
  readBytes : s.readBytes ≤ len

/-- the clusters that are still to be copied -/
def pieces (f : Fat32) (len : Nat) (s : ReadState) : Nat :=
  if s.readBytes < len then f.clustersFor (s.offsetByte + (len - s.readBytes)) else 0

/-- the rounds that are left, if the chain does not end -/
def turns (f : Fat32) (oc len : Nat) (s : ReadState) : Nat := Counter.turns (2^32) oc s.readClusters (s.pieces f len)

/-- what a round does if the loop goes on -/
structure Advances (f : Fat32) (oc len : Nat) (s t : ReadState) : Prop where
  good : Good f len t
  cluster : f.nextMove s.cluster = .go t.cluster
  readClusters : t.readClusters = u32 (s.readClusters + 1)
  pieces : t.pieces f len = work oc s.readClusters (s.pieces f len)
  readable : s.readClusters < oc ∨ f.Readable

/-- how a round leaves the loop -/
structure Leaves (f : Fat32) (len : Nat) (s : ReadState) (r : ReadResult) : Prop where
  le : ∀ x, r = some x → x.1 ≤ len
  stop : f.nextMove s.cluster = .stop () ∨ ¬ f.Readable

section
variable {f : Fat32} {oc len : Nat} {s t : ReadState}

theorem Good.clusterSize_pos (hs : Good f len s) : 0 < f.clusterSize := Nat.zero_lt_of_lt hs.offsetByte

theorem Good.pieces_pos (hs : Good f len s) (hlt : s.readBytes < len) : 0 < s.pieces f len := by
  have hpos := hs.clusterSize_pos
  unfold pieces clustersFor
  rw [if_pos hlt]
  exact Nat.div_pos (by omega) hpos

/-- a copy stays in the buffer -/
theorem Good.length_copy (hs : Good f len s) {tmp : List UInt8} {count : Nat} (htmp : tmp.length = s.tmpBuf.length)
    (hcount : min (f.clusterSize - s.offsetByte) (len - s.readBytes) = count) :
    (s.buffer.take s.readBytes ++ slice s.offsetByte count tmp ++ s.buffer.drop (s.readBytes + count)).length
      = len := by
  have hr := hs.readBytes
  have hslice : (slice s.offsetByte count tmp).length = count := by
    have hle : f.clusterSize ≤ f.sectorSize * f.sectorsPerCluster := Nat.mod_le _ _
    unfold slice
    rw [List.length_take, List.length_drop, htmp, hs.tmpBuf]
    omega
  rw [List.length_append, List.length_append, hslice, List.length_take, List.length_drop, hs.buffer]
  omega

/-- a round that copies what is left of a cluster, or all the bytes that are missing -/
theorem Good.pieces_copy (hs : Good f len s) (hlt : s.readBytes < len) (ho : t.offsetByte = 0)
    (hr : t.readBytes = s.readBytes + min (f.clusterSize - s.offsetByte) (len - s.readBytes)) :
    t.pieces f len = s.pieces f len - 1 := by
  have hoffset := hs.offsetByte
  unfold pieces clustersFor
  rw [if_pos hlt, ho, hr]
  by_cases hmore : f.clusterSize - s.offsetByte < len - s.readBytes
  · have hsum : s.offsetByte + (len - s.readBytes) + f.clusterSize - 1
        = 0 + (len - (s.readBytes + (f.clusterSize - s.offsetByte))) + f.clusterSize - 1 + f.clusterSize := by omega
    rw [Nat.min_eq_left (Nat.le_of_lt hmore), if_pos (by omega), hsum, Nat.add_div_right _ hs.clusterSize_pos,
      Nat.add_sub_cancel]
  · have hone : (s.offsetByte + (len - s.readBytes) + f.clusterSize - 1) / f.clusterSize = 1 :=
      Nat.div_eq_of_lt_le (by omega) (by omega)
    rw [Nat.min_eq_right (Nat.not_lt.mp hmore), if_neg (by omega), hone]

/-- **One round.** -/
theorem readRound_spec (oc : Nat) (hs : Good f len s) (hlt : s.readBytes < len) :
    match readRound oc s with
    | .stop r => Leaves f len s r
    | .go t => Advances f oc len s t := by
  have hcount : u32 (s.readClusters + 1) < 2^32 := Nat.mod_lt _ (by decide)
  unfold readRound
  rw [hs.volume.nextCluster]
  by_cases hskip : s.readClusters < oc
  · rw [if_pos hskip]
    cases hnext : f.nextCluster s.cluster with
    | none => exact ⟨nofun, .inl (nextMove_panic hnext)⟩
    | some x =>
      obtain ⟨_ | d, g⟩ := x
      · refine ⟨fun x hx => ?_, .inl (nextMove_end hnext)⟩
        cases hx
        exact hs.readBytes
      · refine ⟨⟨nextCluster_peeks hnext, hs.offsetByte, hcount, hs.tmpBuf, hs.buffer, hs.readBytes⟩, nextMove_go hnext,
          rfl, ?_, .inl hskip⟩
        exact (if_pos hskip).symm
  · rw [if_neg hskip, hs.volume.readTmp, hs.volume.clusterSize, hs.buffer]
    have hreadable : (f.readTmp s.cluster s.tmpBuf).isSome ↔ f.Readable := readTmp_isSome_iff hs.tmpBuf
    cases hread : f.readTmp s.cluster s.tmpBuf with
    | none =>
      rw [hread] at hreadable
      exact ⟨nofun, .inr fun h => Bool.false_ne_true (hreadable.mpr h)⟩
    | some tmp =>
      rw [hread] at hreadable
      have htmp := length_readTmp hread
      dsimp only
      generalize hcopied : min (f.clusterSize - s.offsetByte) (len - s.readBytes) = count
      have hle : s.readBytes + count ≤ len := by omega
      cases hnext : f.nextCluster s.cluster with
      | none => exact ⟨nofun, .inl (nextMove_panic hnext)⟩
      | some x =>
        obtain ⟨_ | d, g⟩ := x
        · refine ⟨fun x hx => ?_, .inl (nextMove_end hnext)⟩
          cases hx
          exact hle
        · refine ⟨⟨nextCluster_peeks hnext, hs.clusterSize_pos, hcount, htmp.trans hs.tmpBuf, ?_, hle⟩,
            nextMove_go hnext, rfl, ?_, .inr (hreadable.mp rfl)⟩
          · exact hs.length_copy htmp hcopied
          · unfold work
            rw [if_neg hskip]
            exact hs.pieces_copy hlt rfl (hcopied ▸ rfl)

/-! ## all rounds -/

theorem Advances.turns_eq (h : Advances f oc len s t) (hs : Good f len s) (hlt : s.readBytes < len) (hoc : oc < 2^32) :
    s.turns f oc len = t.turns f oc len + 1 := by
  unfold turns
  rw [h.readClusters, h.pieces]
  exact turns_step hoc hs.readClusters (hs.pieces_pos hlt)

/-- **The loop ends** within the rounds that are left. -/
theorem readRounds_ends (hoc : oc < 2^32) (n : Nat) : ∀ {s : ReadState}, Good f len s → s.turns f oc len = n →
    ∃ k r, readRounds oc (n + 1) s = some (k, r) := by
  induction n with
  | zero =>
    intro s hs hn
    have hdone : ¬ s.readBytes < len := fun hlt => Nat.pos_iff_ne_zero.mp (turns_pos (hs.pieces_pos hlt)) hn
    refine ⟨0, some (s.readBytes, s.buffer, s.f), ?_⟩
    unfold readRounds
    rw [hs.buffer, if_neg hdone]
  | succ n ih =>
    intro s hs hn
    have hlt : s.readBytes < len := by
      by_contra hlt
      rw [turns, pieces, if_neg hlt] at hn
      cases hn
    have hround := readRound_spec oc hs hlt
    unfold readRounds
    rw [hs.buffer, if_pos hlt]
    cases h : readRound oc s with
    | stop r => exact ⟨1, r, rfl⟩
    | go t =>
      rw [h] at hround
      have hturns := hround.turns_eq hs hlt hoc
      obtain ⟨k, r, hrun⟩ := ih hround.good (by omega)
      refine ⟨k + 1, r, ?_⟩
      dsimp only
      rw [hrun]
      rfl

/-- what every round keeps holds of the whole loop -/
theorem readRounds_rule {P : ReadState → Nat → ReadResult → Prop}
    (hdone : ∀ s, Good f len s → ¬ s.readBytes < len → P s 0 (some (s.readBytes, s.buffer, s.f)))
    (hstop : ∀ s r, Good f len s → s.readBytes < len → Leaves f len s r → P s 1 r)
    (hgo : ∀ s t k r, Good f len s → s.readBytes < len → Advances f oc len s t → P t k r → P s (k + 1) r)
    (fuel : Nat) : ∀ {s : ReadState} {k : Nat} {r : ReadResult}, Good f len s → readRounds oc fuel s = some (k, r) →
    P s k r := by
  induction fuel with
  | zero => exact fun _ h => nomatch h
  | succ fuel ih =>
    intro s k r hs h
    unfold readRounds at h
    rw [hs.buffer] at h
    by_cases hlt : s.readBytes < len
    · have hround := readRound_spec oc hs hlt
      rw [if_pos hlt] at h
      cases hr : readRound oc s with
      | stop r' =>
        rw [hr] at h hround
        cases h
        exact hstop s r hs hlt hround
      | go t =>
        rw [hr] at h hround
        obtain ⟨⟨k', r'⟩, hrun, he⟩ := Option.map_eq_some_iff.mp h
        cases he
        exact hgo s t k' r hs hlt hround (ih hround.good hrun)
    · rw [if_neg hlt] at h
      cases h
      exact hdone s hs hlt

section
variable {fuel k : Nat} {r : ReadResult}

theorem readRounds_le_len (hs : Good f len s) (h : readRounds oc fuel s = some (k, r)) :
    ∀ x, r = some x → x.1 ≤ len := by
  refine readRounds_rule (P := fun _ _ r => ∀ x, r = some x → x.1 ≤ len) (fun s hs _ x hx => ?_) (fun _ _ _ _ h => h.le)
    (fun _ _ _ _ _ _ _ ih => ih) fuel hs h
  cases hx
  exact hs.readBytes

theorem readRounds_le_turns (hoc : oc < 2^32) (hs : Good f len s) (h : readRounds oc fuel s = some (k, r)) :
    k ≤ s.turns f oc len := by
  refine readRounds_rule (P := fun s k _ => k ≤ s.turns f oc len) (fun _ _ _ => Nat.zero_le _)
    (fun s r hs hlt _ => turns_pos (hs.pieces_pos hlt)) (fun s t k r hs hlt h ih => ?_) fuel hs h
  rw [h.turns_eq hs hlt hoc]
  exact Nat.succ_le_succ ih

/-- all of them, if the chain does not end -/
theorem readRounds_eq_turns (hoc : oc < 2^32) (hf : f.Readable) (hends : ¬ Ends f.nextMove s.cluster)
    (hs : Good f len s) (h : readRounds oc fuel s = some (k, r)) : k = s.turns f oc len := by
  refine readRounds_rule (P := fun s k _ => ¬ Ends f.nextMove s.cluster → k = s.turns f oc len) (fun s hs hlt _ => ?_)
    (fun s r hs hlt h hends => ?_) (fun s t k r hs hlt h ih hends => ?_) fuel hs h hends
  · unfold turns pieces
    rw [if_neg hlt, turns_done]
  · rcases h.stop with h | h
    · exact absurd (ends_stop h) hends
    · exact absurd hf h
  · rw [h.turns_eq hs hlt hoc, ih fun h' => hends ((ends_go h.cluster).mpr h')]

/-- a round for each cluster, unless the count wraps -/
theorem readRounds_plain (hs : Good f len s) (h : readRounds oc fuel s = some (k, r)) :
    k ≤ (oc - s.readClusters) + s.pieces f len ∨ 2^32 ≤ s.readClusters + k := by
  refine readRounds_rule (P := fun s k _ => k ≤ (oc - s.readClusters) + s.pieces f len ∨ 2^32 ≤ s.readClusters + k)
    (fun _ _ _ => .inl (Nat.zero_le _)) (fun s r hs hlt _ => ?_) (fun s t k r hs hlt h ih => ?_) fuel hs h
  · have hpos := hs.pieces_pos hlt
    omega
  · have hwork := h.pieces
    have hcount : t.readClusters = (s.readClusters + 1) % 2^32 := h.readClusters
    rcases plain_step (k := oc) hs.readClusters (hs.pieces_pos hlt) with hplain | hwrap
    · omega
    · omega

/-- nothing is copied if `read_cluster` panics -/
theorem readRounds_unreadable (hoc : oc < 2^32) (hf : ¬ f.Readable) (hs : Good f len s)
    (h : readRounds oc fuel s = some (k, r)) : k ≤ (oc - s.readClusters) + 1 := by
  refine readRounds_rule (P := fun s k _ => k ≤ (oc - s.readClusters) + 1) (fun _ _ _ => Nat.zero_le _)
    (fun _ _ _ _ _ => Nat.le_add_left _ _) (fun s t k r hs hlt h ih => ?_) fuel hs h
  have hskip : s.readClusters < oc := h.readable.resolve_right hf
  have hcount : t.readClusters = (s.readClusters + 1) % 2^32 := h.readClusters
  omega

/-- a round for each cluster of a chain that ends -/
theorem readRounds_run (hs : Good f len s) (h : readRounds oc fuel s = some (k, r)) {n : Nat}
    (hrun : (run f.nextMove n s.cluster).isSome) : k ≤ n := by
  refine readRounds_rule (P := fun s k _ => ∀ n, (run f.nextMove n s.cluster).isSome → k ≤ n)
    (fun _ _ _ _ _ => Nat.zero_le _) (fun s r hs hlt _ n hrun => ?_) (fun s t k r hs hlt h ih n hrun => ?_) fuel hs h n
    hrun
  · obtain _ | n := n
    · cases hrun
    · exact Nat.succ_le_succ (Nat.zero_le n)
  · obtain _ | n := n
    · cases hrun
    · rw [run_go h.cluster] at hrun
      exact Nat.succ_le_succ (ih n hrun)

end

end

end ReadState

namespace Fat32
open ReadState

/-! ## `read_at` -/

/-- a round for each cluster before the offset, one for each cluster that the buffer takes, and one more -/
def roundBound (f : Fat32) (offset len : Nat) : Nat := u32 offset / f.clusterSize + f.clustersFor len + 1

/-- the loop ends within the bound, and not more bytes are returned than the buffer has -/
def ReadsInTime (f : Fat32) (cluster offset : Nat) (buffer : List UInt8) : Prop :=
  ∃ fuel n r, readEntryRounds fuel cluster buffer offset f = some (n, r) ∧ n ≤ f.roundBound offset buffer.length ∧
    ∀ x, r = some x → x.1 ≤ buffer.length

/-- The count does not come back to 0 while bytes are missing, or only once and with one cluster before the offset.  Or
the loop is left before: the first copy panics, or the chain ends. -/
def CountFits (f : Fat32) (cluster offset len : Nat) : Prop :=
  let skip := u32 offset / f.clusterSize
  let copy := f.clustersFor (u32 offset % f.clusterSize + len)
  skip = 0 ∨ copy + skip ≤ 2^32 ∨ (skip = 1 ∧ copy = f.clustersFor len ∧ copy ≤ 2 * (2^32 - 1)) ∨ ¬ f.Readable ∨
    Ends f.nextMove cluster

section
variable {f : Fat32} {cluster offset : Nat} {buffer : List UInt8}

theorem good_start (hpos : 0 < f.clusterSize) : Good f buffer.length (f.readStart cluster offset buffer) where
  volume := .refl f
  offsetByte := Nat.mod_lt _ hpos
  readClusters := Nat.two_pow_pos 32
  tmpBuf := List.length_replicate
  buffer := rfl
  readBytes := Nat.zero_le _

/-- the bytes before the offset take at most one cluster more -/
theorem clustersFor_offset {o : Nat} (ho : o < f.clusterSize) (n : Nat) :
    f.clustersFor n ≤ f.clustersFor (o + n) ∧ f.clustersFor (o + n) ≤ f.clustersFor n + 1 := by
  unfold clustersFor
  rw [← Nat.add_div_right _ (Nat.zero_lt_of_lt ho)]
  exact ⟨Nat.div_le_div_right (by omega), Nat.div_le_div_right (by omega)⟩

/-- **The loop ends on any FAT.** -/
theorem reads_end (f : Fat32) (cluster offset : Nat) (buffer : List UInt8) :
    ∃ fuel n r, readEntryRounds fuel cluster buffer offset f = some (n, r) ∧ ∀ x, r = some x → x.1 ≤ buffer.length := by
  by_cases hzero : f.clusterSize = 0
  · exact ⟨0, 0, none, if_pos hzero, nofun⟩
  · have hgood : Good f buffer.length (f.readStart cluster offset buffer) :=
      good_start (Nat.pos_iff_ne_zero.mpr hzero)
    obtain ⟨n, r, h⟩ := readRounds_ends (f.offsetCluster_lt offset) _ hgood rfl
    exact ⟨_, n, r, (if_neg hzero).trans h, readRounds_le_len hgood h⟩

theorem rounds_le_iff (hpos : 0 < f.clusterSize) {fuel n : Nat} {r : ReadResult}
    (h : readRounds (u32 offset / f.clusterSize) fuel (f.readStart cluster offset buffer) = some (n, r)) :
    n ≤ f.roundBound offset buffer.length ↔ f.CountFits cluster offset buffer.length := by
  have hoc := f.offsetCluster_lt offset
  have hgood : Good f buffer.length (f.readStart cluster offset buffer) := good_start hpos
  obtain ⟨hle, hle'⟩ := clustersFor_offset (Nat.mod_lt (u32 offset) hpos) buffer.length
  unfold roundBound CountFits
  dsimp only
  generalize hskip : u32 offset / f.clusterSize = skip at h hoc ⊢
  generalize hcopy : f.clustersFor (u32 offset % f.clusterSize + buffer.length) = copy at hle hle' ⊢
  by_cases hlen : buffer.length = 0
  · have hturns : n ≤ (f.readStart cluster offset buffer).turns f skip buffer.length := readRounds_le_turns hoc hgood h
    have hnone : (f.readStart cluster offset buffer).turns f skip buffer.length = 0 := by
      unfold ReadState.turns ReadState.pieces
      rw [if_neg (by omega), turns_done]
    have hempty : f.clustersFor buffer.length = 0 := by
      rw [hlen]
      exact Nat.div_eq_of_lt (by omega)
    exact iff_of_true (by omega) (.inr (.inl (by omega)))
  have hpieces : (f.readStart cluster offset buffer).pieces f buffer.length = copy := by
    rw [← hcopy]
    exact if_pos (Nat.pos_iff_ne_zero.mpr hlen)
  by_cases hf : f.Readable
  · by_cases hends : Ends f.nextMove cluster
    · have hshort : n ≤ 2^28 + 1 := readRounds_run hgood h (run_nextMove hends)
      have hplain : n ≤ (skip - 0) + copy ∨ 2^32 ≤ 0 + n := hpieces ▸ readRounds_plain hgood h
      exact iff_of_true (by omega) (.inr (.inr (.inr (.inr hends))))
    · have hturns : n = Counter.turns (2^32) skip 0 copy := hpieces ▸ readRounds_eq_turns hoc hf hends hgood h
      rw [hturns, turns_le_iff hoc hle' hle]
      exact or_congr_right (or_congr_right (or_iff_left fun h => h.elim (· hf) hends).symm)
  · have hfew : n ≤ (skip - 0) + 1 := readRounds_unreadable hoc hf hgood h
    exact iff_of_true (by omega) (.inr (.inr (.inr (.inl hf))))

end

/-- **`read_at` stays within the bound exactly when its count of clusters fits into a `u32`**, or the end comes
before. -/
theorem reads_in_time_iff (f : Fat32) (cluster offset : Nat) (buffer : List UInt8) :
    f.ReadsInTime cluster offset buffer ↔ f.CountFits cluster offset buffer.length := by
  by_cases hzero : f.clusterSize = 0
  · have hskip : u32 offset / f.clusterSize = 0 := by rw [hzero, Nat.div_zero]
    exact iff_of_true ⟨0, 0, none, if_pos hzero, Nat.zero_le _, nofun⟩ (.inl hskip)
  have hpos := Nat.pos_iff_ne_zero.mpr hzero
  constructor
  · intro ⟨fuel, n, r, h, hle, _⟩
    exact (rounds_le_iff hpos ((if_neg hzero).symm.trans h)).mp hle
  · intro hfits
    obtain ⟨fuel, n, r, h, hlen⟩ := reads_end f cluster offset buffer
    exact ⟨fuel, n, r, h, (rounds_le_iff hpos ((if_neg hzero).symm.trans h)).mpr hfits, hlen⟩

/-- `sample` with a link from cluster 3 to itself -/
def circleFront : Nat → List UInt8
  | 0 => [0xF8, 0xFF, 0xFF, 0x0F, 0xFF, 0xFF, 0xFF, 0x0F, 0xFF, 0xFF, 0xFF, 0x0F, 3, 0, 0, 0]
  | n => sampleFront n

theorem length_circleFront : ∀ n, (circleFront n).length ≤ 512
  | 0 => by decide
  | n + 1 => length_sampleFront (n + 1)

def circle : Fat32 :=
  { sample with disk := ⟨fun n => padded (circleFront n), fun n => length_padded (length_circleFront n)⟩ }

theorem circle_entry : circle.fatEntry 3 = 3 := by decide +kernel

theorem circle_readable : circle.Readable := by
  unfold Readable
  decide +kernel

theorem circle_path :
    ∃ b, b.length = 512 ∧
      getEntryFromPath (List.map Char.toUpper) 1 "A" circle = some (some sampleEntry, circle.setBuffer b) := by
  have h : (getEntryFromPath (List.map Char.toUpper) 1 "A" circle).map Prod.fst = some (some sampleEntry) := by
    decide +kernel
  obtain ⟨⟨oe, f₁⟩, hpath, rfl⟩ := Option.map_eq_some_iff.mp h
  obtain ⟨b, hb, rfl⟩ := getEntryFromPath_reads hpath
  exact ⟨b, hb.trans List.length_replicate, hpath⟩

/-- The file `A`, whose only cluster is linked to itself, into a buffer of `2^32` clusters at an offset of `2^22`: the
count comes back to 0 when `2^22` clusters are missing. -/
theorem circle_too_long : ∃ f₁, getEntryFromPath (List.map Char.toUpper) 1 "A" circle = some (some sampleEntry, f₁) ∧
    f₁.nextMove sampleEntry.firstCluster = .go sampleEntry.firstCluster ∧
    ¬ f₁.ReadsInTime sampleEntry.firstCluster (2^31) (List.replicate (2^41) 0) := by
  obtain ⟨b, hb, hpath⟩ := circle_path
  have hentry : (circle.setBuffer b).fatEntry 3 = 3 := circle_entry
  have hnext : (circle.setBuffer b).nextCluster 3 = some (some 3, (circle.setBuffer b).looked 3) := by
    rw [nextCluster_link_eq rfl hb, hentry]
    rfl
  have hmove : (circle.setBuffer b).nextMove 3 = .go 3 := nextMove_go hnext
  refine ⟨_, hpath, hmove, fun ⟨fuel, n, r, h, hle, _⟩ => ?_⟩
  have hsize : (circle.setBuffer b).clusterSize = 512 := show u32 (512 * 1) = 512 by decide
  have hpos : 0 < (circle.setBuffer b).clusterSize := hsize ▸ Nat.succ_pos 511
  have hfits := (rounds_le_iff hpos ((if_neg (Nat.pos_iff_ne_zero.mp hpos)).symm.trans h)).mp hle
  unfold CountFits clustersFor at hfits
  rw [List.length_replicate, hsize] at hfits
  rcases hfits with h | h | ⟨h, -, -⟩ | h | h
  · exact absurd h (by decide)
  · exact absurd h (by decide)
  · exact absurd h (by decide)
  · exact h circle_readable
  · exact not_ends_of_stays hmove h

end Fat32

end Citron.Fs
