import Citron.Loader.Resources

/-!
# Where the leaves of a process come from

The leaves that user mode may use are of three kinds, by what has mapped them: `killme` and the user stack by
`setup_pagetable`, the segments of a program by `load_exe`, the frame of a window by `sys_map_window`.

* `Origin`               what a leaf for user mode leads to;
* `run_cases`            a run of pages adds its own frames and nothing else;
* `setupUser_leaves`     a new process has its user stack and `killme`;
* `loadExe_origin`       a program adds its segments.
-/

namespace Citron.Loader
open Paging Fs Heap Word

/-! ## where leaves come from -/

/-- user mode may use the leaf -/
def user (e : Entry) : Prop := e.permissions &&& EntryBits.U.val ≠ 0#64

def killmeFlags : Word := EntryBits.R.val ||| EntryBits.X.val ||| EntryBits.U.val

/-- the leaf of `killme`, or one that leads to a page of one of the blocks -/
inductive Origin (c : Code) (bs : List Block) (e : Entry) : Prop
  | killme (h : e = leafEntry c.killme killmeFlags)
  | page (b : Block) (hb : b ∈ bs) (q : Nat) (hq : q < pageCount b.2) (bits : Word) (hbits : bits.toNat < 2^10)
      (h : e = leafEntry (BitVec.ofNat 64 (b.1 + 4096 * q)) bits)

theorem Origin.mono {c : Code} {bs bs' : List Block} {e : Entry} (hbs : ∀ b ∈ bs, b ∈ bs') (h : Origin c bs e) :
    Origin c bs' e := by
  cases h with
  | killme h => exact .killme h
  | page b hb q hq bits hbits h => exact .page b (hbs b hb) q hq bits hbits h

/-- the address that a leaf leads to is in the page of the leaf -/
theorem phys_page {pa bits : Word} (hpa : pa.toNat < 2^56) (hbits : bits.toNat < 2^10) (va : Word) :
    ((leafEntry pa bits).phys 0 va).toNat = 4096 * (pa.toNat / 4096) + va.toNat % 4096 := by
  rw [phys_leafEntry hpa hbits (by omega)]
  show ((pa &&& ~~~ lowMask 12) ||| (va &&& lowMask 12)).toNat = _
  exact toNat_or_lowMask (by omega) pa va

/-! ## the leaves of new mappings -/

section leaves
variable {A : PageAllocator} {root : Nat} {bits va : Word} {e : Entry}

theorem leaf_cases {m m' : Mem} {vaddr paddr : Word}
    (hin : ∀ va, pageNo va = pageNo vaddr → leafOf m' root va = some (leafEntry paddr bits))
    (hout : ∀ va, pageNo va ≠ pageNo vaddr → leafOf m' root va = leafOf m root va) (h : leafOf m' root va = some e) :
    e = leafEntry paddr bits ∨ leafOf m root va = some e := by
  by_cases hva : pageNo va = pageNo vaddr
  · exact .inl (Option.some.inj (h.symm.trans (hin va hva)))
  · exact .inr ((hout va hva).symm.trans h)

/-- a leaf after a run of pages was mapped is one of before or leads to one of the frames -/
theorem run_cases {n : Nat} {vaddr paddr : Word} {m m' : Mem} (hr : Remapped root bits n vaddr paddr m m')
    (h : leafOf m' root va = some e) :
    leafOf m root va = some e ∨ ∃ q, q < n ∧ e = leafEntry (paddr + BitVec.ofNat 64 (4096 * q)) bits := by
  by_cases hva : ∃ q, q < n ∧ pageNo va = (pageNo vaddr + q) % 2^27
  · obtain ⟨q, hq, hva⟩ := hva
    -- the last page of that number counts
    have hlast := hr.inside va (n - 1 - (n - 1 - q) % 2^27) (by omega) (by omega) (by omega)
    exact .inr ⟨_, by omega, Option.some.inj (h.symm.trans hlast)⟩
  · refine .inl ((hr.aside va fun q hq he => hva ⟨q, hq, he⟩).symm.trans h)

theorem not_user {pa : Word} (hbits : bits &&& 0x1e#64 &&& EntryBits.U.val = 0#64) : ¬ user (leafEntry pa bits) := by
  unfold user
  rw [permissions_leafEntry, hbits]
  exact fun h => h rfl

/-- what the leaves of a new process lead to -/
theorem setupUser_leaves {c : Code} {tf stack : Nat} {s s' : Heap} (hserve : Heap.Serves A [4096] 10 s.blocks)
    (h : setupUser A ⟨c.trampoline, BitVec.ofNat 64 tf, c.killme⟩ s = some (root, stack, s')) :
    4096 ∣ stack ∧ stack + 4096 ≤ 2^56 ∧
      ∀ va e, leafOf s'.mem root va = some e → user e → Origin c [(stack, 4096)] e := by
  obtain ⟨root', hnext, hserve⟩ := hserve 4096 (List.mem_singleton.mpr rfl)
  have hz := zeroedRoot_of_next hnext
  obtain ⟨s₁, ts₁, hm₁, hg₁, hserve, hin₁, hout₁⟩ := map_served
    (show (EntryBits.R.val ||| EntryBits.X.val) &&& 0xe#64 ≠ 0#64 by decide) trampoline c.trampoline hz.paged hserve
  obtain ⟨s₂, ts₂, hm₂, hg₂, hserve, hin₂, hout₂⟩ := map_served
    (show (EntryBits.R.val ||| EntryBits.W.val) &&& 0xe#64 ≠ 0#64 by decide) trapframe (BitVec.ofNat 64 tf)
    hg₁.keeps.paged hserve
  obtain ⟨s₃, ts₃, hm₃, hg₃, hserve, hin₃, hout₃⟩ := map_served
    (show killmeFlags &&& 0xe#64 ≠ 0#64 by decide) killme c.killme hg₂.keeps.paged hserve
  obtain ⟨stack', hnext₄, hserve⟩ := hserve 4096 (List.mem_singleton.mpr rfl)
  have hk₄ := keeps_push hg₃.keeps.paged (stack', 4096)
  obtain ⟨s₅, ts₅, hm₅, -, -, hin₅, hout₅⟩ := map_served
    (show (EntryBits.R.val ||| EntryBits.W.val ||| EntryBits.U.val) &&& 0xe#64 ≠ 0#64 by decide)
    (userStackStart - userStackSize) (BitVec.ofNat 64 stack') hk₄.paged hserve
  have hroot : root' ≠ 0 := Nat.pos_iff_ne_zero.mp (A.pos _ _ _ hnext)
  have hsize : userStackSize.toNat = 4096 := by decide
  unfold setupUser at h
  rw [Heap.allocZeroed_of_next hnext] at h
  dsimp only at h
  rw [if_neg hroot, hm₁, Option.bind_some, hm₂, Option.bind_some,
    show map A root' killme c.killme (EntryBits.R.val ||| EntryBits.X.val ||| EntryBits.U.val) 0 s₂ = some s₃ from hm₃,
    Option.bind_some, hsize, Heap.alloc_of_next hnext₄] at h
  dsimp only at h
  rw [hm₅, Option.map_some] at h
  cases h
  refine ⟨A.aligned _ _ _ hnext₄, A.bounded _ _ _ hnext₄, fun va e hleaf huser => ?_⟩
  rcases leaf_cases hin₅ hout₅ hleaf with he | hleaf
  · exact .page (stack, 4096) List.mem_cons_self 0 (show 0 < pageCount 4096 by decide) _ (by decide) he
  rcases leaf_cases hin₃ hout₃ hleaf with he | hleaf
  · exact .killme he
  -- the trap frame and the trampoline are for the kernel only
  rcases leaf_cases hin₂ hout₂ hleaf with he | hleaf
  · exact absurd huser (he ▸ not_user (by decide))
  rcases leaf_cases hin₁ hout₁ hleaf with he | hleaf
  · exact absurd huser (he ▸ not_user (by decide))
  · unfold leafOf at hleaf
    rw [hz.tree] at hleaf
    cases hleaf

/-- a leaf that leads to the segment -/
def SegmentLeaf (seg : Segment) (e : Entry) : Prop :=
  ∃ q, q < pageCount seg.layout ∧ e = leafEntry (BitVec.ofNat 64 (seg.ptr + 4096 * q)) segmentFlags

/-- one turn of the loop over the headers, with the leaves after it -/
theorem segment_origin {s : Heap} {sizes : List Nat} {bin size k : Nat} {ph : ProgramHeader} (h4 : 4096 ∈ sizes)
    (hw : Paged s root) (hfile : ph.fileRange.len.toNat ≤ ph.vmRange.len.toNat) (hm : ph.vmRange.len.toNat ∈ sizes)
    (hserve : Heap.Serves A sizes (1 + tables (pageNo ph.pVaddr) ph.mapped + k) s.blocks) {phs : List ProgramHeader}
    {r : List Segment × Heap} (hload : loadSegments A root bin size (ph :: phs) s = some r) :
    ∃ s' seg segments, loadSegments A root bin size phs s' = some (segments, r.2) ∧ r.1 = seg :: segments ∧
      Paged s' root ∧ 4096 ∣ seg.ptr ∧ seg.ptr + seg.layout ≤ 2^56 ∧
      (∀ va e, leafOf s'.mem root va = some e → leafOf s.mem root va = some e ∨ SegmentLeaf seg e) ∧
      Heap.Serves A sizes k s'.blocks := by
  obtain ⟨buf, s₁, s₂, ts, halloc, hbd, hmap, hcopy⟩ := segment_mapped h4 hw hm hserve
  -- the buffer
  rw [show 1 + tables (pageNo ph.pVaddr) ph.mapped + k = k + tables (pageNo ph.pVaddr) ph.mapped + 1 by omega] at hserve
  obtain ⟨buf', hnext, hserve⟩ := hserve _ hm
  rw [allocZeroed_of_next hnext] at halloc
  obtain ⟨rfl, hs₁⟩ := Prod.mk.inj halloc
  have hal : 4096 ∣ buf' := A.aligned _ _ _ hnext
  obtain ⟨hk₁, ht₁⟩ : Keeps root s s₁ ∧ tableTree s₁.mem 2 root = tableTree s.mem 2 root := by
    rw [← hs₁]
    exact keeps_allocZeroed hw hnext
  have hserve₁ : Heap.Serves A [4096] (tables (pageNo ph.pVaddr) ph.mapped) s₁.blocks := by
    rw [← hs₁]
    exact hserve.mono (List.cons_subset.mpr ⟨h4, List.nil_subset _⟩) (by omega)
  have hbuf : (BitVec.ofNat 64 buf').toNat = buf' := by
    rw [BitVec.toNat_ofNat]
    omega
  -- its pages
  obtain ⟨s₃, ps, hmap', hE, -, hr⟩ := mapPages_leaf (show segmentFlags &&& 0xe#64 ≠ 0#64 by decide) ph.mapped
    (ph.pVaddr &&& ~~~ lowMask 12) (BitVec.ofNat 64 buf') hk₁.paged (by rw [pageNo_floor]; exact hserve₁)
  obtain rfl : s₂ = s₃ := by
    rw [mapRange_eq A root _ (by rw [hbuf]; exact hal) (by rw [hbuf]; exact hbd)] at hmap
    exact Option.some.inj (hmap.symm.trans hmap')
  have hsafe : Safe s₂ root (Mem.range buf' (4096 * ph.mapped)) :=
    ((hE.keeps hk₁.paged).safe _ (safe_pages hw hnext (by rw [← hs₁]; exact List.mem_cons_self) ht₁)).1
  unfold loadSegments at hload
  simp only at hload
  split at hload
  · rw [allocZeroed_of_next hnext] at hload
    dsimp only at hload
    rw [hs₁, hmap, Option.bind_some] at hload
    split at hload
    · obtain ⟨⟨segments, s'⟩, hrest, rfl⟩ := Option.map_eq_some_iff.mp hload
      obtain ⟨bs, hbs⟩ : ∃ bs, bs = s₂.mem.bytes (bin + ph.fileRange.start.toNat) ph.fileRange.len.toNat := ⟨_, rfl⟩
      have hlen : bs.length ≤ ph.vmRange.len.toNat := by
        rw [hbs, Mem.length_bytes]
        exact hfile
      obtain ⟨hg, -, hserve'⟩ := hcopy bs hlen
      rw [hbs] at hg hserve'
      refine ⟨_, _, segments, hrest, rfl, hg.keeps.paged, hal, hbd, fun va e hleaf => ?_, hserve'⟩
      -- the copy is in the buffer
      have htree : tableTree (s₂.blit buf' bs).mem 2 root = tableTree s₂.mem 2 root := by
        refine tableTree_congr (Mem.blit_eqOn (hsafe.apart.mono_left (Mem.range_mono le_rfl ?_)))
        unfold ProgramHeader.mapped pageCount
        omega
      rw [← hbs, leafOf_congr htree] at hleaf
      rcases run_cases hr hleaf with hleaf | ⟨q, hq, he⟩
      · rw [leafOf_congr ht₁] at hleaf
        exact .inl hleaf
      · refine .inr ⟨q, hq, ?_⟩
        rw [he, ← BitVec.ofNat_add]
    · cases hload
  · cases hload

/-- the loop -/
theorem loadSegments_origin {sizes : List Nat} {bin size : Nat} (h4 : 4096 ∈ sizes) (phs : List ProgramHeader) :
    ∀ (s : Heap) (r : List Segment × Heap), Paged s root → (∀ ph ∈ phs, ph.fileRange.len.toNat ≤ ph.vmRange.len.toNat) →
    (∀ ph ∈ phs, ph.vmRange.len.toNat ∈ sizes) → Heap.Serves A sizes (demand phs) s.blocks →
    loadSegments A root bin size phs s = some r →
    (∀ seg ∈ r.1, 4096 ∣ seg.ptr ∧ seg.ptr + seg.layout ≤ 2^56) ∧
      ∀ va e, leafOf r.2.mem root va = some e → leafOf s.mem root va = some e ∨ ∃ seg ∈ r.1, SegmentLeaf seg e := by
  induction phs with
  | nil =>
    intro s r _ _ _ _ h
    cases h
    exact ⟨nofun, fun _ _ => .inl⟩
  | cons ph phs ih =>
    intro s r hw hfile hsizes hserve h
    obtain ⟨hf, hfile⟩ := List.forall_mem_cons.mp hfile
    obtain ⟨hm, hsizes⟩ := List.forall_mem_cons.mp hsizes
    obtain ⟨s₁, seg, segments, hrest, hr, hw₁, hal, hbd, hleaf₁, hserve₁⟩ := segment_origin h4 hw hf hm hserve h
    obtain ⟨hsegs, hleaf'⟩ := ih s₁ _ hw₁ hfile hsizes hserve₁ hrest
    rw [hr]
    refine ⟨List.forall_mem_cons.mpr ⟨⟨hal, hbd⟩, hsegs⟩, fun va e hleaf => ?_⟩
    rcases hleaf' va e hleaf with hleaf | ⟨seg', hseg', he⟩
    · rcases hleaf₁ va e hleaf with hleaf | he
      · exact .inl hleaf
      · exact .inr ⟨seg, List.mem_cons_self, he⟩
    · exact .inr ⟨seg', List.mem_cons_of_mem _ hseg', he⟩

/-- `load_exe` when a program was loaded -/
theorem loadExe_origin {σ : Type} {B : BackingFileSystem σ} (hB : Bounded B) {parse : List UInt8 → Option Object}
    {path : String} {fs fs' : FileSystem σ} {s s' : Heap} {info : ExecutableInfo} (hw : Paged s root)
    (hok : ∀ bytes, fileBytes B path fs = some bytes → Loadable A parse bytes s)
    (hload : loadExe A B parse path root s fs = some (.ok info, s', fs')) :
    (∀ seg ∈ info.segmentBuffers, 4096 ∣ seg.ptr ∧ seg.ptr + seg.layout ≤ 2^56) ∧
      ∀ va e, leafOf s'.mem root va = some e →
        leafOf s.mem root va = some e ∨ ∃ seg ∈ info.segmentBuffers, SegmentLeaf seg e := by
  unfold loadExe at hload
  obtain ⟨⟨ro, fs₂⟩, hopen, hload⟩ := Option.bind_eq_some_iff.mp hload
  cases ro with
  | error e => cases hload
  | ok fd =>
    dsimp only at hload
    cases hsize : fs₂.getFileSize fd with
    | error e =>
      rw [hsize] at hload
      cases hload
    | ok size =>
      rw [hsize] at hload
      dsimp only at hload
      split at hload
      · obtain ⟨⟨rr, fs₃⟩, hread, hload⟩ := Option.bind_eq_some_iff.mp hload
        cases rr with
        | error e => cases hload
        | ok bs =>
          have hlen : bs.length ≤ size.toNat := hB.read hread
          obtain ⟨l, hl⟩ : ∃ l, l = bs ++ List.replicate (size.toNat - bs.length) 0 := ⟨_, rfl⟩
          have hbytes : fileBytes B path fs = some l := by
            unfold fileBytes
            rw [hopen]
            dsimp only
            rw [hsize]
            dsimp only
            rw [hread, hl]
          obtain ⟨hph, hserve⟩ := hok l hbytes
          have hlsize : l.length = size.toNat := by
            rw [hl, List.length_append, List.length_replicate]
            omega
          -- the file in memory
          obtain ⟨bin, hnext, hserve⟩ := (Nat.add_comm 1 _ ▸ hserve) l.length (by simp [demandSizes])
          rw [hlsize] at hnext hserve
          rw [allocZeroed_of_next hnext] at hload
          obtain ⟨s₁, hs₁⟩ : ∃ t : Heap, t = Heap.blit ⟨s.mem.zero bin size.toNat, (bin, size.toNat) :: s.blocks⟩ bin bs :=
            ⟨_, rfl⟩
          obtain ⟨hg₁, ht₁, hparse⟩ := grows_file hw hlen hnext hs₁
          rw [← hl] at hparse
          dsimp only at hload
          rw [← hs₁, hparse] at hload
          cases hp : parse l with
          | none =>
            rw [hp] at hload
            cases hload
          | some obj =>
            rw [hp] at hload
            cases obj with
            | other => cases hload
            | elf elf =>
              have hheaders : headers parse l = elf.programHeaders := by
                unfold headers
                rw [hp]
              rw [hheaders] at hph hserve
              obtain ⟨⟨segments, s₂⟩, hsegs, he⟩ := Option.map_eq_some_iff.mp hload
              cases he
              obtain ⟨haligned, hleaf⟩ := loadSegments_origin (List.mem_cons_self : 4096 ∈ demandSizes l elf.programHeaders)
                elf.programHeaders s₁ _ hg₁.keeps.paged hph (fun ph hm => List.mem_cons_of_mem _ (List.mem_cons_of_mem _
                  (List.mem_map_of_mem (f := fun ph : ProgramHeader => ph.vmRange.len.toNat) hm)))
                (by rw [hs₁]; exact hserve) hsegs
              refine ⟨haligned, fun va e h => ?_⟩
              rw [← leafOf_congr ht₁]
              exact hleaf va e h
      · cases hload

end leaves

end Citron.Loader
