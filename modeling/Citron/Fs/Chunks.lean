import Citron.Fs.Read

/-!
# Reading in chunks

Each `read` on a descriptor walks the path and the cluster chain anew.  The only thing that is left of a call in the
file system is the sector buffer, on which no later call depends.

* `findLoop_reads_eq`, `getEntryFromPath_reads_eq`   paths resolve alike, whatever is in the sector buffer;
* `Fat32.backing`     FAT32 behind open files;
* `Opened.read`       one read on a descriptor;
* `chunked_read`      reads in chunks, between calls on other descriptors, give what one read gives.
-/

namespace Citron.Fs

namespace Fat32
variable {f f' : Fat32}

/-! ## the sector buffer -/

theorem nextCluster_reads_eq (hf : f.Ready) (h : f.Reads f') (c : Nat) : f'.nextCluster c = f.nextCluster c := by
  have hf' := hf.reads h
  rw [nextCluster_eq hf, nextCluster_eq hf']
  obtain ⟨b, -, rfl⟩ := h
  rfl

theorem advance_reads_eq (hf : f.Ready) (h : f.Reads f') {c : Cursor} {oc : Option Cursor} {g : Fat32}
    (ha : f.advance c = some (oc, g)) : ∃ g', f'.advance c = some (oc, g') ∧ g.Reads g' := by
  unfold advance at ha ⊢
  dsimp only at ha ⊢
  split
  · rw [if_pos ‹_›] at ha
    refine ⟨g, ?_, Reads.refl g⟩
    rw [nextCluster_reads_eq hf h]
    exact ha
  · rw [if_neg ‹_›] at ha
    cases ha
    exact ⟨f', rfl, h⟩

section
variable {toUppercase : List Char → List Char}

/-- a round sees the volume, not the sector buffer -/
theorem findRound_reads_eq {name : List Char} (hf : f.Ready) (hr : f.Reads f') {c : Cursor}
    {seen : List (List UInt8)} {round : Round} {g : Fat32} (h : findRound toUppercase name c f = some (seen, round, g)) :
    ∃ g', findRound toUppercase name c f' = some (seen, round, g') ∧ g.Reads g' := by
  unfold findRound at h ⊢
  by_cases hend : c.entry.getD 0 0 = 0
  · rw [if_pos hend] at h ⊢
    cases h
    exact ⟨f', rfl, hr⟩
  rw [if_neg hend] at h ⊢
  dsimp only at h ⊢
  obtain ⟨⟨oc, f₁⟩, h₁, h⟩ := Option.bind_eq_some_iff.mp h
  -- on to the entry after an LFN entry
  obtain ⟨hr₁, f₁', h₁', hrr⟩ : f.Reads f₁ ∧ ∃ f₁', (if c.entry.getD 11 0 = 0x0F then f'.advance c
      else some (some c, f')) = some (oc, f₁') ∧ f₁.Reads f₁' := by
    by_cases hlfn : c.entry.getD 11 0 = 0x0F
    · rw [if_pos hlfn] at h₁ ⊢
      exact ⟨advance_reads h₁, advance_reads_eq hf hr h₁⟩
    · rw [if_neg hlfn] at h₁ ⊢
      cases h₁
      exact ⟨Reads.refl _, f', rfl, hr⟩
  rw [h₁', Option.bind_some]
  cases oc with
  | none =>
    cases h
    exact ⟨f₁', rfl, hrr⟩
  | some d =>
    dsimp only at h ⊢
    split
    · rw [if_pos ‹_›] at h
      cases h
      exact ⟨f₁', rfl, hrr⟩
    · rw [if_neg ‹_›] at h
      split
      · rw [if_pos ‹_›] at h
        cases h
        exact ⟨f₁', rfl, hrr⟩
      · rw [if_neg ‹_›] at h
        obtain ⟨⟨oc₂, f₂⟩, h₂, h⟩ := Option.map_eq_some_iff.mp h
        obtain ⟨f₂', h₂', hrr₂⟩ := advance_reads_eq (hf.reads hr₁) hrr h₂
        rw [h₂', Option.map_some]
        cases oc₂ with
        | none =>
          cases h
          exact ⟨f₂', rfl, hrr₂⟩
        | some c₂ =>
          cases h
          exact ⟨f₂', rfl, hrr₂⟩

theorem findLoop_reads_eq {name : List Char} {oe : Option DirEntry} {g : Fat32} :
    ∀ {fuel : Nat} {c : Cursor} {f f' : Fat32}, f.Ready → f.Reads f' →
    findLoop toUppercase name fuel c f = some (oe, g) →
    ∃ g', findLoop toUppercase name fuel c f' = some (oe, g') ∧ g.Reads g' := by
  intro fuel
  induction fuel with
  | zero => intro c f f' _ _ h; cases h
  | succ fuel ih =>
    intro c f f' hf hr h
    rw [findLoop_succ] at h ⊢
    obtain ⟨⟨seen, round, g₁⟩, hround, h⟩ := Option.bind_eq_some_iff.mp h
    obtain ⟨g₁', hround', hrr⟩ := findRound_reads_eq hf hr hround
    rw [hround', Option.bind_some]
    cases round with
    | stop r =>
      cases h
      exact ⟨g₁', rfl, hrr⟩
    | go d => exact ih (hf.reads (findRound_reads hround)) hrr h

theorem walkPath_reads_eq {oe : Option DirEntry} {g : Fat32} {fuel : Nat} (names : List (List Char)) :
    ∀ {cluster : Nat} {curr : Option DirEntry} {f f' : Fat32}, f.Ready → f.Reads f' →
    walkPath toUppercase fuel names cluster curr f = some (oe, g) →
    ∃ g', walkPath toUppercase fuel names cluster curr f' = some (oe, g') ∧ g.Reads g' := by
  induction names with
  | nil =>
    intro cluster curr f f' _ hr h
    cases h
    exact ⟨f', rfl, hr⟩
  | cons name names ih =>
    intro cluster curr f f' hf hr h
    unfold walkPath at h ⊢
    split
    · rw [if_pos ‹_›] at h
      exact ih hf hr h
    · rw [if_neg ‹_›] at h
      obtain ⟨⟨oe₁, f₁⟩, h₁, h⟩ := Option.bind_eq_some_iff.mp h
      obtain ⟨buf, hbuf, hloop⟩ := Option.bind_eq_some_iff.mp h₁
      have hbuf' : f'.readCluster cluster (List.replicate 512 0) = some buf := by
        obtain ⟨b, -, rfl⟩ := hr
        exact hbuf
      obtain ⟨f₁', hloop', hrr⟩ := findLoop_reads_eq hf hr hloop
      have h₁' : findFile toUppercase fuel cluster name f' = some (oe₁, f₁') := by
        unfold findFile
        rw [hbuf', Option.bind_some]
        exact hloop'
      rw [h₁', Option.bind_some]
      cases oe₁ with
      | none =>
        cases h
        exact ⟨f₁', rfl, hrr⟩
      | some e => exact ih (hf.reads (findLoop_reads hloop)) hrr h

/-- paths resolve alike, whatever is in the sector buffer -/
theorem getEntryFromPath_reads_eq (hf : f.Ready) (h : f.Reads f') {fuel : Nat} {path : String}
    {oe : Option DirEntry} {g : Fat32} (hpath : getEntryFromPath toUppercase fuel path f = some (oe, g)) :
    ∃ g', getEntryFromPath toUppercase fuel path f' = some (oe, g') ∧ g.Reads g' := by
  have hroot : f'.rootDirFirstCluster = f.rootDirFirstCluster := by
    obtain ⟨b, -, rfl⟩ := h
    rfl
  unfold getEntryFromPath at hpath ⊢
  rw [hroot]
  exact walkPath_reads_eq _ hf h hpath

end

/-- the volume stays as it is while a file is read -/
theorem readLoop_reads {oc : Nat} : ∀ {fuel c o r rc : Nat} {tmp buffer : List UInt8} {f : Fat32}
    {x : Nat × List UInt8 × Fat32}, readLoop oc fuel c o r rc tmp buffer f = some x → f.Reads x.2.2 := by
  intro fuel
  induction fuel with
  | zero => intro c o r rc tmp buffer f x h; cases h
  | succ fuel ih =>
    intro c o r rc tmp buffer f x h
    unfold readLoop at h
    split at h
    · split at h
      · obtain ⟨⟨next, f₁⟩, h₁, h⟩ := Option.bind_eq_some_iff.mp h
        have hr := nextCluster_reads h₁
        cases next with
        | none => cases h; exact hr
        | some d => exact hr.trans (ih h)
      · obtain ⟨tmp', -, h⟩ := Option.bind_eq_some_iff.mp h
        dsimp only at h
        obtain ⟨⟨next, f₁⟩, h₁, h⟩ := Option.bind_eq_some_iff.mp h
        have hr := nextCluster_reads h₁
        cases next with
        | none => cases h; exact hr
        | some d => exact hr.trans (ih h)
    · cases h
      exact Reads.refl _

/-! ## FAT32 behind open files -/

/-- `impl BackingFileSystem for Fat32` -/
def backing (toUppercase : List Char → List Char) (fuel : Nat) : BackingFileSystem Fat32 where
  readAt len path offset f :=
    (readAt toUppercase fuel (List.replicate len 0) path offset.toNat f).map fun (r, buffer, f) =>
      (r.map fun n => buffer.take n, f)
  fileSize path f := (fileSize toUppercase fuel path f).map fun (r, f) => (r.map fun n => BitVec.ofNat 64 n, f)

section
variable {toUppercase : List Char → List Char} {fuel : Nat}

theorem backing_readAt_reads {len : Nat} {path : String} {offset : Word} {r : Except Error (List UInt8)} {g : Fat32}
    (h : (backing toUppercase fuel).readAt len path offset f = some (r, g)) : f.Reads g := by
  obtain ⟨⟨r, buffer, g'⟩, h, e⟩ := Option.map_eq_some_iff.mp h
  cases e
  unfold readAt at h
  obtain ⟨⟨oe, f₁⟩, hpath, h⟩ := Option.bind_eq_some_iff.mp h
  have hr := getEntryFromPath_reads hpath
  cases oe with
  | none =>
    cases h
    exact hr
  | some e =>
    obtain ⟨x, hx, h⟩ := Option.map_eq_some_iff.mp h
    cases h
    unfold readEntry at hx
    split at hx
    · cases hx
    · exact hr.trans (readLoop_reads hx)

theorem backing_fileSize_reads {path : String} {r : Except Error Word} {g : Fat32}
    (h : (backing toUppercase fuel).fileSize path f = some (r, g)) : f.Reads g := by
  obtain ⟨⟨r, g'⟩, h, e⟩ := Option.map_eq_some_iff.mp h
  cases e
  unfold fileSize at h
  obtain ⟨⟨oe, f₁⟩, hpath, h⟩ := Option.map_eq_some_iff.mp h
  have hr := getEntryFromPath_reads hpath
  cases oe with
  | none =>
    cases h
    exact hr
  | some e =>
    cases h
    exact hr

end

end Fat32

/-! ## calls on descriptors -/

/-- a read on the descriptor in question, or any other call -/
inductive Call where
  | own (len : Nat)
  | openFile (path : String)
  | seek (fd offset : Word) (whence : Nat)
  | read (fd : Word) (len : Nat)

section
variable {σ : Type} (B : BackingFileSystem σ) (fd : Word)

/-- what a call returns, if it is a read on `fd` -/
def Call.run : Call → FileSystem σ → Option (List (Except Error (List UInt8)) × FileSystem σ)
  | .own len, fs => (fs.read B fd len).map fun (r, fs) => ([r], fs)
  | .openFile path, fs => (fs.openFile B path).map fun (_, fs) => ([], fs)
  | .seek d offset whence, fs => some ([], (fs.seek d offset whence).2)
  | .read d len, fs => (fs.read B d len).map fun (_, fs) => ([], fs)

/-- what the reads on `fd` among the calls return -/
def runCalls : List Call → FileSystem σ → Option (List (Except Error (List UInt8)) × FileSystem σ)
  | [], fs => some ([], fs)
  | c :: calls, fs => (c.run B fd fs).bind fun (r, fs) => (runCalls calls fs).map fun (rs, fs) => (r ++ rs, fs)

/-- the call is a read on `fd`, or one on another descriptor -/
def Call.Apart (fs : FileSystem σ) : Call → Prop
  | .own _ => True
  | .openFile _ => fs.currFd ≠ fd
  | .seek d _ _ => d ≠ fd
  | .read d _ => d ≠ fd

def Apart : List Call → FileSystem σ → Prop
  | [], _ => True
  | c :: calls, fs => c.Apart fd fs ∧ ∀ x, c.run B fd fs = some x → Apart calls x.2

end

/-- the lengths of the buffers of the reads in question -/
def ownLengths (calls : List Call) : List Nat :=
  calls.filterMap fun
    | .own len => some len
    | _ => none

/-- the descriptor `fd` is open on the entry `e`, whose clusters hold `data`; the offset and the data stay below `top` -/
structure Opened (toUppercase : List Char → List Char) (fuel top : Nat) (fs : FileSystem Fat32) (fd : Word) (file : File)
    (e : DirEntry) (cs : List Nat) (data : List UInt8) : Prop where
  ready : fs.backing.Ready
  desc : fs.descTable fd = some file
  path : ∃ f₁, Fat32.getEntryFromPath toUppercase fuel file.path fs.backing = some (some e, f₁)
  chain : fs.backing.Chain e.firstCluster cs
  content : fs.backing.content cs = data
  small : data.length ≤ top
  offset : file.offset.toNat ≤ top
  top_lt : top < 2^32

section
variable {toUppercase : List Char → List Char} {fuel top : Nat} {fs fs' : FileSystem Fat32} {fd : Word} {file : File}
  {e : DirEntry} {cs : List Nat} {data : List UInt8}

/-- a call that leaves the volume and the descriptor alone -/
theorem Opened.reads (h : Opened toUppercase fuel top fs fd file e cs data) (hr : fs.backing.Reads fs'.backing)
    (hd : fs'.descTable fd = some file) : Opened toUppercase fuel top fs' fd file e cs data where
  ready := h.ready.reads hr
  desc := hd
  path := by
    obtain ⟨f₁, hpath⟩ := h.path
    obtain ⟨g, hg, -⟩ := Fat32.getEntryFromPath_reads_eq h.ready hr hpath
    exact ⟨g, hg⟩
  chain := h.chain.reads hr
  content := by
    obtain ⟨b, -, hb⟩ := hr
    rw [hb]
    exact h.content
  small := h.small
  offset := h.offset
  top_lt := h.top_lt

/-- `read_at` of the file: the bytes of its clusters from the offset on -/
theorem Opened.readAt (h : Opened toUppercase fuel top fs fd file e cs data) {n : Nat} (hfuel : top + n < fuel) :
    ∃ b, (Fat32.backing toUppercase fuel).readAt n file.path file.offset fs.backing
        = some (.ok ((data.drop file.offset.toNat).take n), b) ∧ fs.backing.Reads b := by
  obtain ⟨f₁, hpath⟩ := h.path
  have hr := Fat32.getEntryFromPath_reads hpath
  have hu : u32 file.offset.toNat = file.offset.toNat := Nat.mod_eq_of_lt (Nat.lt_of_le_of_lt h.offset h.top_lt)
  have hdiv := Nat.div_le_self (u32 file.offset.toNat) f₁.clusterSize
  have hoff := h.offset
  have hlt : u32 file.offset.toNat / f₁.clusterSize + (List.replicate n (0 : UInt8)).length < fuel := by
    rw [List.length_replicate]
    omega
  obtain ⟨b, -, hread⟩ := Fat32.readEntry_chain (h.ready.reads hr) (h.chain.reads hr) hlt
  have hbytes : f₁.bytesAt cs file.offset.toNat n = (data.drop file.offset.toNat).take n := by
    obtain ⟨b, -, rfl⟩ := hr
    unfold Fat32.bytesAt
    rw [hu, ← h.content]
    rfl
  have hat : (Fat32.backing toUppercase fuel).readAt n file.path file.offset fs.backing
      = some (.ok ((data.drop file.offset.toNat).take n), f₁.setBuffer b) := by
    show (Fat32.readAt toUppercase fuel (List.replicate n 0) file.path file.offset.toNat fs.backing).map _ = _
    rw [Fat32.readAt_resolved hpath, hread, List.length_replicate, hbytes]
    show some (Except.ok ((fill 0 _ _).take _), _) = _
    rw [Fat32.fill_zero_take]
  exact ⟨_, hat, Fat32.backing_readAt_reads hat⟩

/-- **One read on a descriptor.** -/
theorem Opened.read (h : Opened toUppercase fuel top fs fd file e cs data) {n : Nat} (hfuel : top + n < fuel) :
    ∃ fs' file', fs.read (Fat32.backing toUppercase fuel) fd n = some (.ok ((data.drop file.offset.toNat).take n), fs') ∧
      Opened toUppercase fuel top fs' fd file' e cs data ∧
      file'.offset.toNat = file.offset.toNat + ((data.drop file.offset.toNat).take n).length ∧
      ∀ d, d ≠ fd → fs'.descTable d = fs.descTable d := by
  obtain ⟨b, hat, hr⟩ := h.readAt hfuel
  have hlen : ((data.drop file.offset.toNat).take n).length = min n (data.length - file.offset.toNat) := by
    rw [List.length_take, List.length_drop]
  have hsmall := h.small
  have hoff := h.offset
  have htop := h.top_lt
  have hsum : (file.offset + BitVec.ofNat 64 ((data.drop file.offset.toNat).take n).length).toNat
      = file.offset.toNat + ((data.drop file.offset.toNat).take n).length := by
    rw [BitVec.toNat_add, BitVec.toNat_ofNat,
      Nat.mod_eq_of_lt (show ((data.drop file.offset.toNat).take n).length < 2^64 by omega)]
    exact Nat.mod_eq_of_lt (by omega)
  let file' := { file with offset := file.offset + BitVec.ofNat 64 ((data.drop file.offset.toNat).take n).length }
  refine ⟨_, file', FileSystem.read_ok h.desc hat, ?_, hsum, fun d hd => if_neg hd⟩
  have hopen : Opened toUppercase fuel top { fs with backing := b } fd file e cs data := h.reads hr h.desc
  exact
    { ready := hopen.ready
      desc := if_pos rfl
      path := hopen.path
      chain := hopen.chain
      content := hopen.content
      small := h.small
      offset := by
        show (file.offset + _).toNat ≤ _
        rw [hsum]
        omega
      top_lt := h.top_lt }

/-- a call on another descriptor -/
theorem Opened.apart (h : Opened toUppercase fuel top fs fd file e cs data) {c : Call} (hc : c.Apart fd fs)
    (hown : ∀ len, c ≠ .own len) {x : List (Except Error (List UInt8)) × FileSystem Fat32}
    (hx : c.run (Fat32.backing toUppercase fuel) fd fs = some x) :
    x.1 = [] ∧ Opened toUppercase fuel top x.2 fd file e cs data := by
  cases c with
  | own len => exact absurd rfl (hown len)
  | openFile path =>
    obtain ⟨⟨r, fs₁⟩, hopen, rfl⟩ := Option.map_eq_some_iff.mp hx
    obtain ⟨⟨size, b⟩, hsize, he⟩ := Option.map_eq_some_iff.mp hopen
    have hr := Fat32.backing_fileSize_reads hsize
    cases size with
    | error e =>
      cases he
      exact ⟨rfl, h.reads hr h.desc⟩
    | ok size =>
      cases he
      exact ⟨rfl, h.reads hr ((if_neg (Ne.symm hc)).trans h.desc)⟩
  | seek d offset whence =>
    obtain rfl := Option.some.inj hx
    refine ⟨rfl, ?_⟩
    have hmove : ∀ file', Opened toUppercase fuel top (fs.setFile d file') fd file e cs data :=
      fun file' => h.reads (Fat32.Reads.refl _) ((if_neg (Ne.symm hc)).trans h.desc)
    show Opened toUppercase fuel top (fs.seek d offset whence).2 fd file e cs data
    unfold FileSystem.seek
    cases fs.descTable d with
    | none =>
      dsimp only
      split_ifs <;> exact h
    | some file' =>
      dsimp only
      split_ifs
      · exact hmove _
      · exact hmove _
      · exact hmove _
      · exact h
  | read d len =>
    obtain ⟨⟨r, fs₁⟩, hread, rfl⟩ := Option.map_eq_some_iff.mp hx
    refine ⟨rfl, ?_⟩
    unfold FileSystem.read at hread
    cases hd : fs.descTable d with
    | none =>
      rw [hd] at hread
      cases hread
      exact h
    | some file' =>
      rw [hd] at hread
      obtain ⟨⟨r', b⟩, hat, he⟩ := Option.map_eq_some_iff.mp hread
      have hr := Fat32.backing_readAt_reads hat
      cases r' with
      | error e =>
        cases he
        exact h.reads hr h.desc
      | ok bs =>
        cases he
        exact h.reads hr ((if_neg (Ne.symm hc)).trans h.desc)

/-- two reads one after the other -/
theorem take_chunk (l : List UInt8) (m n : Nat) : l.take m ++ (l.drop (l.take m).length).take n = l.take (m + n) := by
  rw [List.take_add]
  congr 1
  by_cases h : m ≤ l.length
  · rw [List.length_take, Nat.min_eq_left h]
  · rw [List.length_take, Nat.min_eq_right (by omega), List.drop_of_length_le (by omega),
      List.drop_of_length_le (by omega)]

theorem ownLengths_cons_of_ne {c : Call} (h : ∀ len, c ≠ .own len) (calls : List Call) :
    ownLengths (c :: calls) = ownLengths calls := by
  cases c with
  | own len => exact absurd rfl (h len)
  | _ => rfl

/-- a run of calls: the chunks that the reads return, and the descriptor at its end -/
theorem Opened.runCalls (calls : List Call) : ∀ {fs : FileSystem Fat32} {file : File}
    {x : List (Except Error (List UInt8)) × FileSystem Fat32},
    Opened toUppercase fuel top fs fd file e cs data → Apart (Fat32.backing toUppercase fuel) fd calls fs →
    top + (ownLengths calls).sum < fuel → Fs.runCalls (Fat32.backing toUppercase fuel) fd calls fs = some x →
    ∃ (chunks : List (List UInt8)) (file' : File), x.1 = chunks.map .ok ∧ chunks.length = (ownLengths calls).length ∧
      chunks.flatten = (data.drop file.offset.toNat).take (ownLengths calls).sum ∧
      Opened toUppercase fuel top x.2 fd file' e cs data ∧
      file'.offset.toNat = file.offset.toNat + chunks.flatten.length := by
  induction calls with
  | nil =>
    intro fs file x h _ _ hx
    obtain rfl := Option.some.inj hx
    exact ⟨[], file, rfl, rfl, rfl, h, rfl⟩
  | cons c calls ih =>
    intro fs file x h hapart hfuel hx
    obtain ⟨⟨r, fs₁⟩, hc, hx⟩ := Option.bind_eq_some_iff.mp hx
    obtain ⟨⟨rs, fs₂⟩, hrest, rfl⟩ := Option.map_eq_some_iff.mp hx
    have hapart' := hapart.2 _ hc
    by_cases hown : ∃ len, c = .own len
    · obtain ⟨n, rfl⟩ := hown
      have hsum : (ownLengths (.own n :: calls)).sum = n + (ownLengths calls).sum := by
        show (n :: ownLengths calls).sum = _
        rw [List.sum_cons]
      rw [hsum] at hfuel ⊢
      obtain ⟨fs₁', file₁, hread, hopen, hoff, -⟩ := h.read (n := n) (by omega)
      have hc' : some ([.ok ((data.drop file.offset.toNat).take n)], fs₁') = some (r, fs₁) := by
        rw [← hc]
        show _ = (fs.read (Fat32.backing toUppercase fuel) fd n).map _
        rw [hread]
        rfl
      cases hc'
      obtain ⟨chunks, file', hrs, hlen, hflat, hopen', hoff'⟩ := ih hopen hapart' (by omega) hrest
      refine ⟨(data.drop file.offset.toNat).take n :: chunks, file', ?_, ?_, ?_, hopen', ?_⟩
      · rw [List.map_cons, ← hrs]
        rfl
      · rw [List.length_cons, hlen]
        rfl
      · rw [List.flatten_cons, hflat, hoff, ← List.drop_drop]
        exact take_chunk _ _ _
      · rw [hoff', hoff, List.flatten_cons, List.length_append, Nat.add_assoc]
    · have hne : ∀ len, c ≠ .own len := fun len e => hown ⟨len, e⟩
      rw [ownLengths_cons_of_ne hne] at hfuel ⊢
      obtain ⟨hr, hopen⟩ := h.apart hapart.1 hne hc
      obtain ⟨chunks, file', hrs, hrest'⟩ := ih hopen hapart' hfuel hrest
      refine ⟨chunks, file', ?_, hrest'⟩
      rw [show r = [] from hr]
      exact hrs

end

/-- **Reading in chunks equals one read.**  The reads on the descriptor `fd` in a run of calls, between any calls on
other descriptors, return chunks that put together are what one `read_at` at the first offset returns; the offset
moves by their length; and after any such run a read returns, and moves no other descriptor. -/
theorem chunked_read (toUppercase : List Char → List Char) (fuel : Nat) (fs : FileSystem Fat32) (fd : Word)
    (file : File) (e : DirEntry) (f₁ : Fat32) (cs : List Nat) (hf : fs.backing.Ready)
    (hdesc : fs.descTable fd = some file)
    (hpath : Fat32.getEntryFromPath toUppercase fuel file.path fs.backing = some (some e, f₁))
    (hchain : fs.backing.Chain e.firstCluster cs) (hsize : cs.length * (512 * fs.backing.sectorsPerCluster) < 2^32)
    (hoffset : file.offset.toNat < 2^32) (calls : List Call)
    (hapart : Apart (Fat32.backing toUppercase fuel) fd calls fs)
    (hfuel : max file.offset.toNat (cs.length * (512 * fs.backing.sectorsPerCluster)) + (ownLengths calls).sum < fuel)
    (rs : List (Except Error (List UInt8))) (fs' : FileSystem Fat32)
    (hrun : runCalls (Fat32.backing toUppercase fuel) fd calls fs = some (rs, fs')) :
    ∃ chunks : List (List UInt8), rs = chunks.map .ok ∧ chunks.length = (ownLengths calls).length ∧
      (∃ b, (Fat32.backing toUppercase fuel).readAt (ownLengths calls).sum file.path file.offset fs.backing
        = some (.ok chunks.flatten, b)) ∧
      (∃ file', fs'.descTable fd = some file' ∧
        file'.offset.toNat = file.offset.toNat + chunks.flatten.length) ∧
      ∀ n, max file.offset.toNat (cs.length * (512 * fs.backing.sectorsPerCluster)) + n < fuel →
        ∃ bs fs'', fs'.read (Fat32.backing toUppercase fuel) fd n = some (.ok bs, fs'') ∧
        ∀ d, d ≠ fd → fs''.descTable d = fs'.descTable d := by
  have hopen : Opened toUppercase fuel (max file.offset.toNat (cs.length * (512 * fs.backing.sectorsPerCluster)))
      fs fd file e cs (fs.backing.content cs) :=
    ⟨hf, hdesc, ⟨f₁, hpath⟩, hchain, rfl, by rw [Fat32.length_content hf]; exact Nat.le_max_right _ _,
      Nat.le_max_left _ _, Nat.max_lt.mpr ⟨hoffset, hsize⟩⟩
  obtain ⟨chunks, file', hrs, hlen, hflat, hopen', hoff⟩ := hopen.runCalls calls hapart hfuel hrun
  obtain ⟨b, hat, -⟩ := hopen.readAt hfuel
  refine ⟨chunks, hrs, hlen, ⟨b, by rw [hat, hflat]⟩, ⟨file', hopen'.desc, hoff⟩, fun n hn => ?_⟩
  obtain ⟨fs'', _, hread, -, -, hothers⟩ := hopen'.read hn
  exact ⟨_, fs'', hread, hothers⟩

/-- A descriptor on the file of one cluster: one byte and, after calls on another descriptor, the other 511. -/
theorem chunked_read_example : ∃ rs fs', runCalls (Fat32.backing (List.map Char.toUpper) 2000) 3
      [.openFile "A", .own 1, .seek 4 9 0, .own 600]
      ⟨Fat32.sample, fun d => if d = 3 then some ⟨"A", 3, 0, 1⟩ else none, 4⟩ = some (rs, fs') ∧
    ∃ chunks : List (List UInt8), rs = chunks.map .ok ∧ chunks.length = 2 ∧
      ∃ b, (Fat32.backing (List.map Char.toUpper) 2000).readAt 601 "A" 0 Fat32.sample = some (.ok chunks.flatten, b) := by
  let fs : FileSystem Fat32 := ⟨Fat32.sample, fun d => if d = 3 then some ⟨"A", 3, 0, 1⟩ else none, 4⟩
  let calls : List Call := [.openFile "A", .own 1, .seek 4 9 0, .own 600]
  obtain ⟨f₁, hpath⟩ := Fat32.sample_path
  have hsome : (runCalls (Fat32.backing (List.map Char.toUpper) 2000) 3 calls fs).isSome := by decide +kernel
  obtain ⟨⟨rs, fs'⟩, hrun⟩ := Option.isSome_iff_exists.mp hsome
  have hapart : Apart (Fat32.backing (List.map Char.toUpper) 2000) 3 calls fs :=
    ⟨show (4 : Word) ≠ 3 by decide, fun _ _ => ⟨trivial, fun _ _ =>
      ⟨show (4 : Word) ≠ 3 by decide, fun _ _ => ⟨trivial, fun _ _ => trivial⟩⟩⟩⟩
  obtain ⟨chunks, hrs, hlen, hone, -⟩ := chunked_read (List.map Char.toUpper) 2000 fs 3 ⟨"A", 3, 0, 1⟩ Fat32.sampleEntry f₁
    [3] Fat32.sample_ready rfl (Fat32.getEntryFromPath_mono (by decide) hpath) Fat32.sample_chain (by decide) (by decide)
    calls hapart (by decide) rs fs' hrun
  exact ⟨rs, fs', hrun, chunks, hrs, hlen, hone⟩

end Citron.Fs
