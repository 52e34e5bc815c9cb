import Citron.Fs.Chain

/-!
# Reading files

`read_at` against the bytes of the file's cluster chain, and against the size of its directory entry.

* `readEntry_chain`     an entry with a chain: the bytes of the chain from the offset on;
* `findRound`           one round of the loop of `find_file`; `findLoop_succ` makes the loop of them;
* `getEntryFromPath_mono`, `getEntryFromPath_reads`   the path: more fuel changes nothing, and the volume stays;
* `readAt_content`      `read_at` returns the bytes of the chain;
* `readAt_size_iff`     when it respects the size of the file.
-/

namespace Citron.Fs.Fat32
variable {f : Fat32}

/-! ## entries -/

/-- the bytes at an offset -/
def bytesAt (f : Fat32) (cs : List Nat) (offset n : Nat) : List UInt8 := ((f.content cs).drop (u32 offset)).take n

theorem readEntry_chain (hf : f.Ready) {e : DirEntry} {cs : List Nat} (h : f.Chain e.firstCluster cs)
    {fuel offset : Nat} {buffer : List UInt8} (hfuel : u32 offset / f.clusterSize + buffer.length < fuel) :
    ∃ b, b.length = 512 ∧
      f.readEntry fuel e buffer offset = some ((f.bytesAt cs offset buffer.length).length,
        fill 0 (f.bytesAt cs offset buffer.length) buffer, f.setBuffer b) := by
  have hpos := hf.clusterSize_pos
  have htmp : (List.replicate (f.sectorSize * f.sectorsPerCluster) (0 : UInt8)).length = f.clusterSize := by
    rw [List.length_replicate, hf.clusterSize_eq, hf.sectorSize]
  have hshort : cs.length < 2^28 := h.length_lt
  obtain ⟨b, hb, hloop⟩ := readLoop_chain cs f e.firstCluster (u32 offset / f.clusterSize) fuel
    (u32 offset % f.clusterSize) 0 0 _ buffer hf h (Nat.mod_lt _ hpos) htmp (Nat.zero_le _) (by omega) hfuel
  have hrest : f.rest cs (u32 offset / f.clusterSize - 0) (u32 offset % f.clusterSize) (buffer.length - 0)
      = f.bytesAt cs offset buffer.length := by
    unfold rest bytesAt
    rw [Nat.sub_zero, Nat.sub_zero, Nat.div_add_mod']
  refine ⟨b, hb, ?_⟩
  unfold readEntry
  rw [if_neg (by omega)]
  refine hloop.trans ?_
  rw [hrest, Nat.zero_add]

/-! ## the rounds of `find_file` -/

/-- how a round ends: the loop is left, or goes on -/
inductive Round where
  | stop (r : Option DirEntry)
  | go (c : Cursor)

section
variable (toUppercase : List Char → List Char) (fileName : List Char)

/-- one round of the loop of `find_file`, with the entries it looks at; `none` is a panic -/
def findRound (c : Cursor) (f : Fat32) : Option (List (List UInt8) × Round × Fat32) :=
  if c.entry.getD 0 0 = 0 then some ([c.entry], .stop none, f)
  else
    let isLfn := c.entry.getD 11 0 = 0x0F
    let found := isLfn ∧ lfnToString (LFNEntry.ofBytes c.entry) = fileName
    (if isLfn then f.advance c else some (some c, f)).bind fun
      | (none, f) => some ([c.entry], .stop none, f)
      | (some d, f) =>
        let seen := if isLfn then [c.entry, d.entry] else [c.entry]
        let dirEntry := DirEntry.ofBytes d.entry
        if found then some (seen, .stop (some dirEntry), f)
        else if dirEntryName dirEntry = toUppercase fileName then some (seen, .stop (some dirEntry), f)
        else (f.advance d).map fun
          | (none, f) => (seen, .stop none, f)
          | (some c, f) => (seen, .go c, f)

/-- the loop is made of its rounds -/
theorem findLoop_succ (fuel : Nat) (c : Cursor) (f : Fat32) :
    findLoop toUppercase fileName (fuel + 1) c f = (findRound toUppercase fileName c f).bind fun
      | (_, .stop r, f) => some (r, f)
      | (_, .go c, f) => findLoop toUppercase fileName fuel c f := by
  rw [findLoop]
  unfold findRound
  by_cases hend : c.entry.getD 0 0 = 0
  · rw [if_pos hend, if_pos hend]
    rfl
  · rw [if_neg hend, if_neg hend]
    dsimp only
    cases (if c.entry.getD 11 0 = 0x0F then f.advance c else some (some c, f)) with
    | none => rfl
    | some x =>
      obtain ⟨_ | d, f⟩ := x
      · rfl
      · dsimp only [Option.bind_some]
        split
        · rfl
        · split
          · rfl
          · cases f.advance d with
            | none => rfl
            | some y =>
              obtain ⟨_ | c, f⟩ := y
              · rfl
              · rfl

end

/-! ## paths -/

section paths
variable {toUppercase : List Char → List Char}

theorem findLoop_mono {name : List Char} {x : Option DirEntry × Fat32} :
    ∀ {fuel fuel' : Nat} {c : Cursor} {f : Fat32}, fuel ≤ fuel' →
    findLoop toUppercase name fuel c f = some x → findLoop toUppercase name fuel' c f = some x := by
  intro fuel
  induction fuel with
  | zero => intro fuel' c f _ h; cases h
  | succ fuel ih =>
    intro fuel' c f hle h
    obtain ⟨fuel', rfl⟩ : ∃ n, fuel' = n + 1 := ⟨fuel' - 1, by omega⟩
    rw [findLoop_succ] at h ⊢
    obtain ⟨⟨seen, round, g⟩, hround, h⟩ := Option.bind_eq_some_iff.mp h
    rw [hround, Option.bind_some]
    cases round with
    | stop r => exact h
    | go d => exact ih (Nat.le_of_succ_le_succ hle) h

theorem walkPath_mono {x : Option DirEntry × Fat32} {fuel fuel' : Nat} (hle : fuel ≤ fuel')
    (names : List (List Char)) : ∀ {cluster : Nat} {curr : Option DirEntry} {f : Fat32},
    walkPath toUppercase fuel names cluster curr f = some x →
    walkPath toUppercase fuel' names cluster curr f = some x := by
  induction names with
  | nil => intro cluster curr f h; exact h
  | cons name names ih =>
    intro cluster curr f h
    unfold walkPath at h ⊢
    split
    · rw [if_pos ‹_›] at h
      exact ih h
    · rw [if_neg ‹_›] at h
      obtain ⟨⟨oe, f₁⟩, h₁, h⟩ := Option.bind_eq_some_iff.mp h
      obtain ⟨buf, hbuf, hloop⟩ := Option.bind_eq_some_iff.mp h₁
      have h₁' : findFile toUppercase fuel' cluster name f = some (oe, f₁) := by
        unfold findFile
        rw [hbuf, Option.bind_some]
        exact findLoop_mono hle hloop
      rw [h₁', Option.bind_some]
      cases oe with
      | none => exact h
      | some e => exact ih h

theorem getEntryFromPath_mono {x : Option DirEntry × Fat32} {fuel fuel' : Nat} {path : String}
    (hle : fuel ≤ fuel') (h : getEntryFromPath toUppercase fuel path f = some x) :
    getEntryFromPath toUppercase fuel' path f = some x :=
  walkPath_mono hle _ h

/-- only the sector buffer may differ -/
def Reads (f f' : Fat32) : Prop := ∃ b, b.length = f.buffer.length ∧ f' = f.setBuffer b

theorem Reads.refl (f : Fat32) : f.Reads f := ⟨f.buffer, rfl, rfl⟩

theorem Reads.trans {f f' f'' : Fat32} (h : f.Reads f') (h' : f'.Reads f'') : f.Reads f'' := by
  obtain ⟨b, hb, rfl⟩ := h
  obtain ⟨b', hb', rfl⟩ := h'
  exact ⟨b', hb'.trans hb, rfl⟩

theorem disk_readSector_spec {d : Disk} {n : Nat} {b b' : List UInt8} (h : d.readSector n b = some b') :
    b'.length = b.length ∧ b'.drop 512 = b.drop 512 := by
  unfold Disk.readSector at h
  split at h
  · obtain rfl := Option.some.inj h
    refine ⟨?_, List.drop_left' (d.length_sector _)⟩
    rw [List.length_append, d.length_sector, List.length_drop]
    omega
  · cases h

/-- a look at the FAT writes the first sector of the buffer, and a link has 28 bits -/
theorem nextCluster_spec {f f' : Fat32} {cluster : Nat} {next : Option Nat}
    (h : f.nextCluster cluster = some (next, f')) :
    ∃ b, b.length = f.buffer.length ∧ b.drop 512 = f.buffer.drop 512 ∧ f' = f.setBuffer b ∧
      ∀ d, next = some d → d < 2^28 := by
  unfold nextCluster at h
  split at h
  · cases h
  · obtain ⟨b, hb, h⟩ := Option.bind_eq_some_iff.mp h
    obtain ⟨hlen, hdrop⟩ := disk_readSector_spec hb
    split at h
    · cases h
    · dsimp only at h
      split at h
      · cases h
        exact ⟨b, hlen, hdrop, rfl, nofun⟩
      · split at h
        · cases h
        · cases h
          refine ⟨b, hlen, hdrop, rfl, fun d hd => ?_⟩
          cases hd
          exact Nat.and_lt_two_pow _ (by decide)

theorem nextCluster_reads {f f' : Fat32} {cluster : Nat} {next : Option Nat}
    (h : f.nextCluster cluster = some (next, f')) : f.Reads f' := by
  obtain ⟨b, hlen, -, hb, -⟩ := nextCluster_spec h
  exact ⟨b, hlen, hb⟩

theorem advance_reads {f f' : Fat32} {c : Cursor} {oc : Option Cursor}
    (h : f.advance c = some (oc, f')) : f.Reads f' := by
  unfold advance at h
  dsimp only at h
  split at h
  · obtain ⟨⟨next, f₁⟩, h₁, h⟩ := Option.bind_eq_some_iff.mp h
    cases next with
    | none =>
      cases h
      exact nextCluster_reads h₁
    | some cluster =>
      obtain ⟨buf, -, h⟩ := Option.map_eq_some_iff.mp h
      cases h
      exact nextCluster_reads h₁
  · cases h
    exact Reads.refl _

theorem findRound_reads {name : List Char} {c : Cursor} {f : Fat32} {x : List (List UInt8) × Round × Fat32}
    (h : findRound toUppercase name c f = some x) : f.Reads x.2.2 := by
  unfold findRound at h
  split at h
  · cases h
    exact Reads.refl _
  · dsimp only at h
    obtain ⟨⟨oc, f₁⟩, h₁, h⟩ := Option.bind_eq_some_iff.mp h
    have hr₁ : f.Reads f₁ := by
      split at h₁
      · exact advance_reads h₁
      · cases h₁
        exact Reads.refl _
    cases oc with
    | none =>
      cases h
      exact hr₁
    | some c₁ =>
      dsimp only at h
      split at h
      · cases h
        exact hr₁
      · split at h
        · cases h
          exact hr₁
        · obtain ⟨⟨oc₂, f₂⟩, h₂, h⟩ := Option.map_eq_some_iff.mp h
          have hr₂ := hr₁.trans (advance_reads h₂)
          cases oc₂ with
          | none =>
            cases h
            exact hr₂
          | some c₂ =>
            cases h
            exact hr₂

theorem findLoop_reads {name : List Char} {oe : Option DirEntry} {f' : Fat32} :
    ∀ {fuel : Nat} {c : Cursor} {f : Fat32},
    findLoop toUppercase name fuel c f = some (oe, f') → f.Reads f' := by
  intro fuel
  induction fuel with
  | zero => intro c f h; cases h
  | succ fuel ih =>
    intro c f h
    rw [findLoop_succ] at h
    obtain ⟨⟨seen, round, g⟩, hround, h⟩ := Option.bind_eq_some_iff.mp h
    cases round with
    | stop r =>
      cases h
      exact findRound_reads hround
    | go d => exact (findRound_reads hround).trans (ih h)

theorem walkPath_reads {oe : Option DirEntry} {f' : Fat32} {fuel : Nat} (names : List (List Char)) :
    ∀ {cluster : Nat} {curr : Option DirEntry} {f : Fat32},
    walkPath toUppercase fuel names cluster curr f = some (oe, f') → f.Reads f' := by
  induction names with
  | nil => intro cluster curr f h; cases h; exact Reads.refl _
  | cons name names ih =>
    intro cluster curr f h
    unfold walkPath at h
    split at h
    · exact ih h
    · obtain ⟨⟨oe₁, f₁⟩, h₁, h⟩ := Option.bind_eq_some_iff.mp h
      obtain ⟨buf, -, hloop⟩ := Option.bind_eq_some_iff.mp h₁
      have hr := findLoop_reads hloop
      cases oe₁ with
      | none =>
        cases h
        exact hr
      | some e => exact hr.trans (ih h)

theorem getEntryFromPath_reads {oe : Option DirEntry} {f' : Fat32} {fuel : Nat} {path : String}
    (h : getEntryFromPath toUppercase fuel path f = some (oe, f')) : f.Reads f' :=
  walkPath_reads _ h

theorem Ready.reads (hf : f.Ready) {f' : Fat32} (h : f.Reads f') : f'.Ready := by
  obtain ⟨b, hb, rfl⟩ := h
  exact hf.setBuffer (hb.trans hf.buffer)

theorem Chain.reads {c : Nat} {cs : List Nat} (h : f.Chain c cs) {f' : Fat32} (hr : f.Reads f') :
    f'.Chain c cs := by
  obtain ⟨b, -, rfl⟩ := hr
  exact h.setBuffer b

end paths

/-! ## the bytes of the chain -/

/-- `r` bytes of `data` from the offset on stand at the front of the buffer, and the rest is as before -/
structure Copied (data : List UInt8) (offset r : Nat) (buffer buffer' : List UInt8) : Prop where
  length : buffer'.length = buffer.length
  front : ∀ i < r, offset + i < data.length ∧ buffer'[i]? = data[offset + i]?
  back : ∀ i, r ≤ i → buffer'[i]? = buffer[i]?

theorem copied_fill {data buffer : List UInt8} {offset : Nat} :
    Copied data offset ((data.drop offset).take buffer.length).length buffer
      (fill 0 ((data.drop offset).take buffer.length) buffer) := by
  have hlen : ((data.drop offset).take buffer.length).length = min buffer.length (data.length - offset) := by
    rw [List.length_take, List.length_drop]
  refine ⟨length_fill (by omega), fun i hi => ⟨by omega, ?_⟩, fun i hi => ?_⟩
  · unfold fill
    rw [List.take_zero, List.nil_append, List.getElem?_append_left hi,
      List.getElem?_take_of_lt (by omega), List.getElem?_drop]
  · unfold fill
    rw [List.take_zero, List.nil_append, List.getElem?_append_right hi, List.getElem?_drop]
    congr 1
    omega

theorem length_bytesAt (hf : f.Ready) (cs : List Nat) (offset n : Nat) :
    (f.bytesAt cs offset n).length = min n (cs.length * (512 * f.sectorsPerCluster) - u32 offset) := by
  unfold bytesAt
  rw [List.length_take, List.length_drop, length_content hf]

section readAt
variable {toUppercase : List Char → List Char}

theorem readAt_resolved {fuel : Nat} {path : String} {e : DirEntry} {f₁ : Fat32}
    (h : getEntryFromPath toUppercase fuel path f = some (some e, f₁)) (buffer : List UInt8) (offset : Nat) :
    readAt toUppercase fuel buffer path offset f =
      (f₁.readEntry fuel e buffer offset).map fun (n, b, f') => (.ok n, b, f') := by
  unfold readAt
  rw [h]
  rfl

/-- **Reads return the bytes of the chain**: for every entry with a chain, and for every path to one. -/
theorem readAt_content (toUppercase : List Char → List Char) (f : Fat32) (hf : f.Ready) (e : DirEntry)
    (cs : List Nat) (hchain : f.Chain e.firstCluster cs)
    (buffer : List UInt8) (offset : Nat)
    (hoffset : offset < 2^32) (fuel : Nat) (hfuel : offset / f.clusterSize + buffer.length < fuel) :
    let r := min buffer.length (cs.length * (512 * f.sectorsPerCluster) - offset)
    (∃ buffer' f', f.readEntry fuel e buffer offset = some (r, buffer', f') ∧
      Copied (f.content cs) offset r buffer buffer') ∧
    ∀ path f₁ fuel₀, fuel₀ ≤ fuel → getEntryFromPath toUppercase fuel₀ path f = some (some e, f₁) →
      ∃ buffer' f', readAt toUppercase fuel buffer path offset f = some (.ok r, buffer', f') ∧
        Copied (f.content cs) offset r buffer buffer' := by
  intro r
  have hu : u32 offset = offset := Nat.mod_eq_of_lt hoffset
  have hr : r = ((f.content cs).drop offset |>.take buffer.length).length := by
    rw [List.length_take, List.length_drop, length_content hf]
  have hbytes : f.bytesAt cs offset buffer.length = ((f.content cs).drop offset).take buffer.length := by
    unfold bytesAt
    rw [hu]
  have hread : ∀ {f₁ : Fat32}, f.Reads f₁ → ∃ b, f₁.readEntry fuel e buffer offset
      = some (r, fill 0 (((f.content cs).drop offset).take buffer.length) buffer, f₁.setBuffer b) := by
    intro f₁ hreads
    obtain ⟨b₀, -, rfl⟩ := id hreads
    obtain ⟨b, -, hb⟩ := readEntry_chain (hf.reads hreads) (hchain.reads hreads)
      (show u32 offset / f.clusterSize + buffer.length < fuel by rw [hu]; exact hfuel)
    refine ⟨b, hb.trans ?_⟩
    show some ((f.bytesAt cs offset buffer.length).length, fill 0 (f.bytesAt cs offset buffer.length) buffer, _)
      = _
    rw [hbytes, hr]
  refine ⟨?_, fun path f₁ fuel₀ hle hpath => ?_⟩
  · obtain ⟨b, hb⟩ := hread (Reads.refl f)
    exact ⟨_, _, hb, hr ▸ copied_fill⟩
  · obtain ⟨b, hb⟩ := hread (getEntryFromPath_reads hpath)
    refine ⟨_, f₁.setBuffer b, ?_, hr ▸ copied_fill⟩
    rw [readAt_resolved (getEntryFromPath_mono hle hpath), hb]
    rfl

/-- the front of a sector, the rest zero -/
def padded (bytes : List UInt8) : List UInt8 := bytes ++ List.replicate (512 - bytes.length) 0

theorem length_padded {bytes : List UInt8} (h : bytes.length ≤ 512) : (padded bytes).length = 512 := by
  unfold padded
  rw [List.length_append, List.length_replicate]
  omega

/-- a volume with one file `A` of one byte, in cluster 3; the FAT is sector 0, the root directory sector 1 -/
def sampleFront : Nat → List UInt8
  | 0 => [0xF8, 0xFF, 0xFF, 0x0F, 0xFF, 0xFF, 0xFF, 0x0F, 0xFF, 0xFF, 0xFF, 0x0F, 0xFF, 0xFF, 0xFF, 0x0F]
  | 1 => [65, 32, 32, 32, 32, 32, 32, 32, 32, 32, 32, 0x20, 0, 0, 0, 0, 0, 0, 0, 0, 0, 0, 0, 0, 0, 0, 3, 0, 1, 0,
      0, 0]
  | 2 => [7]
  | _ => []

theorem length_sampleFront : ∀ n, (sampleFront n).length ≤ 512
  | 0 => by decide
  | 1 => by decide
  | 2 => by decide
  | _ + 3 => Nat.zero_le _

def sample : Fat32 where
  disk := ⟨fun n => padded (sampleFront n), fun n => length_padded (length_sampleFront n)⟩
  buffer := List.replicate 512 0
  fatBegin := 0
  clusterBegin := 1
  sectorsPerCluster := 1
  rootDirFirstCluster := 2
  sectorSize := 512

def sampleEntry : DirEntry := ⟨[65, 32, 32, 32, 32, 32, 32, 32, 32, 32, 32], 0x20, 0, 3, 1⟩

theorem sample_ready : sample.Ready := ⟨rfl, le_rfl, by decide, List.length_replicate⟩

theorem sample_chain : sample.Chain sampleEntry.firstCluster [3] :=
  .last ⟨by decide, by decide, by decide⟩ (by decide)

theorem sample_path :
    ∃ f₁, getEntryFromPath (List.map Char.toUpper) 1 "A" sample = some (some sampleEntry, f₁) := by
  have h : (getEntryFromPath (List.map Char.toUpper) 1 "A" sample).map Prod.fst = some (some sampleEntry) := by
    decide +kernel
  obtain ⟨⟨oe, f₁⟩, hpath, rfl⟩ := Option.map_eq_some_iff.mp h
  exact ⟨f₁, hpath⟩

theorem readAt_content_example :
    ∃ buffer' f', readAt (List.map Char.toUpper) 3 [1, 2] "A" 511 sample = some (.ok 1, buffer', f') ∧
      Copied (sample.content [3]) 511 1 [1, 2] buffer' := by
  obtain ⟨f₁, hpath⟩ := sample_path
  have h := (readAt_content (List.map Char.toUpper) sample sample_ready sampleEntry [3] sample_chain [1, 2] 511
    (by decide) 3 (by decide)).2 "A" f₁ 1 (by decide) hpath
  have hr : min ([1, 2] : List UInt8).length ([3].length * (512 * sample.sectorsPerCluster) - 511) = 1 := by decide
  rwa [hr] at h

/-! ## walks without a chain -/

/-- the links from a cluster end within `n` steps -/
def endsWithin (f : Fat32) : Nat → Nat → Bool
  | 0, _ => false
  | n + 1, c => endMark ≤ f.fatEntry c || (f.fatEntry c != badMark && f.endsWithin n (f.fatEntry c))

theorem endsWithin_setBuffer (b : List UInt8) (n : Nat) : ∀ c,
    (f.setBuffer b).endsWithin n c = f.endsWithin n c := by
  induction n with
  | zero => exact fun _ => rfl
  | succ n ih =>
    intro c
    show (_ || (_ && (f.setBuffer b).endsWithin n (f.fatEntry c))) = _
    rw [ih]
    rfl

/-- the chain ends before the offset: nothing is read -/
theorem readLoop_ends {oc o r : Nat} {tmp buffer : List UInt8} (hoc : oc < 2^32) (hlt : r < buffer.length) :
    ∀ (n : Nat) {f : Fat32} {fuel c rc : Nat}, f.Ready → oc - rc = n → n < fuel →
    f.endsWithin n c = true →
    ∃ f', readLoop oc fuel c o r rc tmp buffer f = some (r, buffer, f') := by
  intro n
  induction n with
  | zero => intro f fuel c rc _ _ _ hends; cases hends
  | succ n ih =>
    intro f fuel c rc hf hn hfuel hends
    obtain ⟨fuel, rfl⟩ : ∃ k, fuel = k + 1 := ⟨fuel - 1, by omega⟩
    rw [readLoop_skip hlt (by omega), nextCluster_eq hf, show u32 (rc + 1) = rc + 1 from Nat.mod_eq_of_lt (by omega)]
    rcases Bool.or_eq_true_iff.mp hends with hmark | hnext
    · rw [if_pos (of_decide_eq_true hmark)]
      exact ⟨_, rfl⟩
    · obtain ⟨hbad, hends⟩ := Bool.and_eq_true_iff.mp hnext
      split
      · exact ⟨_, rfl⟩
      · rw [if_neg (by simpa using hbad)]
        refine ih (hf.looked c) (by omega) (by omega) ?_
        unfold looked
        rw [endsWithin_setBuffer]
        exact hends

/-- the loop never gives bytes back -/
theorem readLoop_le {oc : Nat} : ∀ {fuel c o r rc : Nat} {tmp buffer : List UInt8} {f : Fat32}
    {x : Nat × List UInt8 × Fat32}, readLoop oc fuel c o r rc tmp buffer f = some x → r ≤ x.1 := by
  intro fuel
  induction fuel with
  | zero => intro c o r rc tmp buffer f x h; cases h
  | succ fuel ih =>
    intro c o r rc tmp buffer f x h
    unfold readLoop at h
    split at h
    · split at h
      · obtain ⟨⟨next, f₁⟩, -, h⟩ := Option.bind_eq_some_iff.mp h
        cases next with
        | none => cases h; exact le_rfl
        | some d => exact ih h
      · obtain ⟨tmp', -, h⟩ := Option.bind_eq_some_iff.mp h
        dsimp only at h
        obtain ⟨⟨next, f₁⟩, -, h⟩ := Option.bind_eq_some_iff.mp h
        cases next with
        | none => cases h; exact Nat.le_add_right _ _
        | some d => exact (Nat.le_add_right _ _).trans (ih h)
    · cases h
      exact le_rfl

/-- the chain does not end before the offset: a cluster is copied -/
theorem readLoop_lt {oc o r : Nat} {tmp buffer : List UInt8} (hoc : oc < 2^32) (hlt : r < buffer.length) :
    ∀ (n : Nat) {f : Fat32} {fuel c rc : Nat} {x : Nat × List UInt8 × Fat32}, f.Ready → o < f.clusterSize →
    tmp.length = f.clusterSize → oc - rc = n → f.endsWithin n c = false →
    readLoop oc fuel c o r rc tmp buffer f = some x → r < x.1 := by
  intro n
  induction n with
  | zero =>
    intro f fuel c rc x hf ho htmp hn _ h
    obtain _ | fuel := fuel
    · cases h
    · have hpiece := length_piece hf c o (buffer.length - r)
      rw [readLoop_copy hf htmp hlt (by omega)] at h
      obtain ⟨⟨next, f₁⟩, -, h⟩ := Option.bind_eq_some_iff.mp h
      cases next with
      | none =>
        cases h
        show r < r + _
        omega
      | some d =>
        have := readLoop_le h
        omega
  | succ n ih =>
    intro f fuel c rc x hf ho htmp hn hends h
    obtain _ | fuel := fuel
    · cases h
    · obtain ⟨hmark, hnext⟩ := Bool.or_eq_false_iff.mp hends
      rw [readLoop_skip hlt (by omega), nextCluster_eq hf, if_neg (of_decide_eq_false hmark),
        show u32 (rc + 1) = rc + 1 from Nat.mod_eq_of_lt (by omega)] at h
      split at h
      · cases h
      · rename_i hbad
        refine ih (hf.looked c) ho htmp (by omega) ?_ h
        unfold looked
        rw [endsWithin_setBuffer]
        simpa [hbad] using hnext

/-! ## the size of the file -/

/-- a file of a well-formed volume: the clusters of an entry, none for an empty file -/
inductive FileOn (f : Fat32) (e : DirEntry) : List Nat → Prop
  | empty (hsize : e.size = 0) (hfirst : e.firstCluster = 0) : FileOn f e []
  | clusters {cs : List Nat} (h : f.Chain e.firstCluster cs) (hsize : e.size < 2^32)
      (hle : e.size ≤ cs.length * (512 * f.sectorsPerCluster)) : FileOn f e cs

theorem FileOn.reads {e : DirEntry} {cs : List Nat} (h : f.FileOn e cs) {f' : Fat32} (hr : f.Reads f') :
    f'.FileOn e cs := by
  obtain ⟨b, -, rfl⟩ := hr
  cases h with
  | empty hsize hfirst => exact .empty hsize hfirst
  | clusters h hsize hle => exact .clusters (h.setBuffer b) hsize hle

/-- what a read owes to its caller: the bytes of the file from the offset on, and none past its end -/
def Respects (f : Fat32) (e : DirEntry) (cs : List Nat) (len offset r : Nat) (buffer' : List UInt8) : Prop :=
  r = (if offset < e.size then min len (e.size - offset) else 0) ∧
    buffer'.take r = (((f.content cs).take e.size).drop offset).take r

/-- the reads that the size of the clusters does not spoil -/
def WithinFile (f : Fat32) (e : DirEntry) (cs : List Nat) (len offset : Nat) : Prop :=
  if cs = [] then len = 0 ∨ f.endsWithin (u32 offset / f.clusterSize) 0 = true
  else if offset < e.size then len ≤ e.size - offset ∨ e.size = cs.length * (512 * f.sectorsPerCluster)
  else len = 0 ∨ cs.length * (512 * f.sectorsPerCluster) ≤ u32 offset

theorem fill_zero_take (data buffer : List UInt8) : (fill 0 data buffer).take data.length = data := by
  unfold fill
  rw [List.take_zero, List.nil_append, List.take_left]

/-- the bytes copied are those of the file, as far as they go -/
theorem bytesAt_eq {cs : List Nat} {size offset len : Nat} (hoffset : u32 offset = offset)
    (hr : (f.bytesAt cs offset len).length ≤ size - offset) :
    f.bytesAt cs offset len
      = (((f.content cs).take size).drop offset).take (f.bytesAt cs offset len).length := by
  rw [List.drop_take, List.take_take, Nat.min_eq_left hr]
  unfold bytesAt
  rw [hoffset, List.take_eq_take_iff, List.length_take]
  omega

theorem readEntry_respects_chain (hf : f.Ready) {e : DirEntry} {cs : List Nat}
    (h : f.Chain e.firstCluster cs) (hsize : e.size < 2^32)
    (hle : e.size ≤ cs.length * (512 * f.sectorsPerCluster)) {fuel offset : Nat} {buffer : List UInt8}
    (hfuel : u32 offset / f.clusterSize + buffer.length < fuel) :
    (∃ r buffer' f', f.readEntry fuel e buffer offset = some (r, buffer', f') ∧
      f.Respects e cs buffer.length offset r buffer') ↔ f.WithinFile e cs buffer.length offset := by
  obtain ⟨b, -, hread⟩ := readEntry_chain hf h hfuel
  have hlen := length_bytesAt hf cs offset buffer.length
  have hcs : cs ≠ [] := by
    intro hnil
    subst hnil
    cases h
  have hresult : (∃ r buffer' f', f.readEntry fuel e buffer offset = some (r, buffer', f') ∧
      f.Respects e cs buffer.length offset r buffer') ↔
      f.Respects e cs buffer.length offset (f.bytesAt cs offset buffer.length).length
        (fill 0 (f.bytesAt cs offset buffer.length) buffer) := by
    constructor
    · intro ⟨r, buffer', f', hread', hres⟩
      rw [hread] at hread'
      cases hread'
      exact hres
    · exact fun hres => ⟨_, _, _, hread, hres⟩
  rw [hresult]
  unfold Respects WithinFile
  rw [fill_zero_take, if_neg hcs]
  by_cases hlt : offset < e.size
  · have hu : u32 offset = offset := Nat.mod_eq_of_lt (by omega)
    rw [if_pos hlt, if_pos hlt]
    constructor
    · intro ⟨hr, _⟩
      omega
    · intro hcond
      have hr : (f.bytesAt cs offset buffer.length).length = min buffer.length (e.size - offset) := by omega
      exact ⟨hr, bytesAt_eq hu (by omega)⟩
  · rw [if_neg hlt, if_neg hlt]
    constructor
    · intro ⟨hr, _⟩
      omega
    · intro hcond
      have hr : (f.bytesAt cs offset buffer.length).length = 0 := by omega
      exact ⟨hr, by rw [hr, List.take_zero]; exact List.eq_nil_of_length_eq_zero hr⟩

theorem readEntry_respects_empty (hf : f.Ready) {e : DirEntry} (hsize : e.size = 0)
    (hfirst : e.firstCluster = 0) {fuel offset : Nat} {buffer : List UInt8}
    (hfuel : u32 offset / f.clusterSize + buffer.length < fuel) :
    (∃ r buffer' f', f.readEntry fuel e buffer offset = some (r, buffer', f') ∧
      f.Respects e [] buffer.length offset r buffer') ↔ f.WithinFile e [] buffer.length offset := by
  have hpos := hf.clusterSize_pos
  have htmp : (List.replicate (f.sectorSize * f.sectorsPerCluster) (0 : UInt8)).length = f.clusterSize := by
    rw [List.length_replicate, hf.clusterSize_eq, hf.sectorSize]
  unfold Respects WithinFile readEntry
  rw [if_pos rfl, hsize, hfirst, if_neg (by omega : ¬ f.clusterSize = 0), if_neg (Nat.not_lt_zero _)]
  constructor
  · intro ⟨r, buffer', f', hread, hr, _⟩
    by_contra hcond
    obtain ⟨hlen, hends⟩ := not_or.mp hcond
    have := readLoop_lt (f.offsetCluster_lt offset) (Nat.pos_of_ne_zero hlen) _ hf (Nat.mod_lt _ hpos) htmp (Nat.sub_zero _)
      (by simpa using hends) hread
    exact absurd hr (Nat.pos_iff_ne_zero.mp this)
  · intro hcond
    obtain ⟨f', hread⟩ : ∃ f', readLoop (u32 offset / f.clusterSize) fuel 0 (u32 offset % f.clusterSize) 0 0
        (List.replicate (f.sectorSize * f.sectorsPerCluster) 0) buffer f = some (0, buffer, f') := by
      by_cases hlen : buffer.length = 0
      · obtain _ | fuel := fuel
        · exact absurd hfuel (Nat.not_lt_zero _)
        · exact ⟨f, by rw [readLoop, if_neg (by omega)]⟩
      · exact readLoop_ends (f.offsetCluster_lt offset) (Nat.pos_of_ne_zero hlen) _ hf (Nat.sub_zero _) (by omega)
          (hcond.resolve_left hlen)
    exact ⟨0, buffer, f', hread, rfl, rfl⟩

theorem readEntry_respects_iff (hf : f.Ready) {e : DirEntry} {cs : List Nat} (h : f.FileOn e cs)
    {fuel offset : Nat} {buffer : List UInt8}
    (hfuel : u32 offset / f.clusterSize + buffer.length < fuel) :
    (∃ r buffer' f', f.readEntry fuel e buffer offset = some (r, buffer', f') ∧
      f.Respects e cs buffer.length offset r buffer') ↔ f.WithinFile e cs buffer.length offset := by
  cases h with
  | empty hsize hfirst => exact readEntry_respects_empty hf hsize hfirst hfuel
  | clusters h hsize hle => exact readEntry_respects_chain hf h hsize hle hfuel

theorem withinFile_reads {f' : Fat32} (hr : f.Reads f') (e : DirEntry) (cs : List Nat) (len offset : Nat) :
    f'.WithinFile e cs len offset ↔ f.WithinFile e cs len offset := by
  obtain ⟨b, -, rfl⟩ := hr
  unfold WithinFile
  rw [endsWithin_setBuffer]
  rfl

/-- **When reads respect the size of the file**: `read_at` reads to the end of the last cluster, so exactly
when the buffer stops before the end of the file, or the file fills its clusters; of an empty file, when
there is nothing to read or the FAT ends the walk from its first cluster, which is 0. -/
theorem readAt_size_iff (toUppercase : List Char → List Char) (f : Fat32) (hf : f.Ready) (e : DirEntry)
    (cs : List Nat) (hfile : f.FileOn e cs) (buffer : List UInt8) (offset fuel : Nat)
    (hfuel : u32 offset / f.clusterSize + buffer.length < fuel) :
    ((∃ r buffer' f', f.readEntry fuel e buffer offset = some (r, buffer', f') ∧
      f.Respects e cs buffer.length offset r buffer') ↔ f.WithinFile e cs buffer.length offset) ∧
    ∀ path f₁ fuel₀, fuel₀ ≤ fuel → getEntryFromPath toUppercase fuel₀ path f = some (some e, f₁) →
      ((∃ r buffer' f', readAt toUppercase fuel buffer path offset f = some (.ok r, buffer', f') ∧
        f.Respects e cs buffer.length offset r buffer') ↔ f.WithinFile e cs buffer.length offset) := by
  refine ⟨readEntry_respects_iff hf hfile hfuel, fun path f₁ fuel₀ hle hpath => ?_⟩
  have hreads := getEntryFromPath_reads hpath
  have hsize : f₁.clusterSize = f.clusterSize := by
    obtain ⟨b, -, rfl⟩ := hreads
    rfl
  have hres : f₁.Respects e cs = f.Respects e cs := by
    obtain ⟨b, -, rfl⟩ := hreads
    rfl
  rw [← withinFile_reads hreads, ← readEntry_respects_iff (hf.reads hreads) (hfile.reads hreads)
    (hsize ▸ hfuel), readAt_resolved (getEntryFromPath_mono hle hpath), hres]
  constructor
  · intro ⟨r, buffer', f', hread, h⟩
    obtain ⟨⟨r', b', f''⟩, hread', heq⟩ := Option.map_eq_some_iff.mp hread
    cases heq
    exact ⟨_, _, _, hread', h⟩
  · intro ⟨r, buffer', f', hread, h⟩
    exact ⟨r, buffer', f', by rw [hread]; rfl, h⟩

theorem sample_file : sample.FileOn sampleEntry [3] :=
  .clusters sample_chain (by decide) (by decide)

theorem readAt_size_iff_example :
    (∃ r buffer' f', readAt (List.map Char.toUpper) 2 [0] "A" 0 sample = some (.ok r, buffer', f') ∧
      sample.Respects sampleEntry [3] 1 0 r buffer') ↔ sample.WithinFile sampleEntry [3] 1 0 := by
  obtain ⟨f₁, hpath⟩ := sample_path
  exact (readAt_size_iff (List.map Char.toUpper) sample sample_ready sampleEntry [3] sample_file [0] 0 2
    (by decide)).2 "A" f₁ 1 (by decide) hpath

/-- a file of one byte, read into a buffer of two: two bytes come back -/
theorem readAt_past_end :
    ¬ ∃ r buffer' f', readAt (List.map Char.toUpper) 3 [0, 0] "A" 0 sample = some (.ok r, buffer', f') ∧
      sample.Respects sampleEntry [3] 2 0 r buffer' := by
  intro ⟨r, buffer', f', hread, hr, _⟩
  have h : (readAt (List.map Char.toUpper) 3 [0, 0] "A" 0 sample).map (·.1.toOption) = some (some 2) := by
    decide +kernel
  rw [hread] at h
  cases h
  cases hr

end readAt

end Citron.Fs.Fat32
