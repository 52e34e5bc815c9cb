import Citron.Loader.Resources

/-!
# Process memory is given back once

`kill` gives back what a process has, also when it is called for a process that is `Free` already or that was
never set up.  In runs in which it is not, every block that is deallocated is live and no killed process has
one.

* `Act.Proper`             a step that the allocator can serve, on a process that is not `Free`;
* `Held`, `Booked`          the fields of every process lead to live blocks of its own;
* `resources_released`     **the law of whole runs**.
-/

namespace Citron.Loader
open Paging Fs Heap

/-! ## the ledger -/

/-- everything that the processes have not given back -/
def Manager.ledger (m : Manager) : List Block := m.ptable.flatMap Process.owned

section ledger
variable {l : List Process} {i j : Nat} {P Q : Process}

/-- a process that changes what it has -/
theorem count_ledger_set (b : Block) (P' : Process) (h : l[i]? = some P) :
    ((l.set i P').flatMap Process.owned).count b + P.owned.count b
      = (l.flatMap Process.owned).count b + P'.owned.count b := by
  induction l generalizing i with
  | nil => cases h
  | cons Q l ih =>
    cases i with
    | zero =>
      cases h
      rw [List.set_cons_zero, List.flatMap_cons, List.flatMap_cons, List.count_append, List.count_append]
      omega
    | succ i =>
      have := ih h
      rw [List.set_cons_succ, List.flatMap_cons, List.flatMap_cons, List.count_append, List.count_append]
      omega

theorem count_ledger (b : Block) (h : l[i]? = some P) : P.owned.count b ≤ (l.flatMap Process.owned).count b := by
  have := count_ledger_set b ⟨false, P.archProc, 0, []⟩ h
  simp only [List.count_nil] at this
  omega

/-- two processes -/
theorem count_ledger_two (b : Block) (hne : i ≠ j) (hi : l[i]? = some P) (hj : l[j]? = some Q) :
    P.owned.count b + Q.owned.count b ≤ (l.flatMap Process.owned).count b := by
  have h₁ := count_ledger_set b ⟨false, P.archProc, 0, []⟩ hi
  have hj' : (l.set i ⟨false, P.archProc, 0, []⟩)[j]? = some Q := by
    rw [List.getElem?_set_ne hne]
    exact hj
  have h₂ := count_ledger b hj'
  simp only [List.count_nil] at h₁
  omega

end ledger

/-! ## what a process has -/

/-- it has been set up and not been killed -/
def Process.Alive (P : Process) : Prop := P.free = false ∧ P.archProc.pageTable ≠ dangling

/-- the blocks of a process are those that its fields lead to -/
structure Held (s : Heap) (P : Process) : Prop where
  free : P.free = true → P.owned = []
  bare : P.free = false → P.archProc.pageTable = dangling →
    P.owned = [(P.archProc.trapFrame, 4096), (P.kernelStack, kernelStackSize)]
  paged : P.Alive → Paged s P.archProc.pageTable
  owned : P.Alive → P.owned = P.blocks s.mem

/-- **Every block of every process is live, and no two of them overlap.** -/
structure Booked (m : Manager) : Prop where
  stray : m.stray = []
  tidy : Tidy m.heap.blocks
  ledger : ∀ b, m.ledger.count b ≤ m.heap.blocks.count b
  held : ∀ (i : Nat) (P : Process), m.ptable[i]? = some P → Held m.heap P

theorem mem_tablePages {m : Mem} {root p : Nat} : p ∈ tablePages m root ↔ (tableTree m 2 root).Has p :=
  Radix.mem_nodes List.mem_finRange _

theorem nodup_tablePages {s : Heap} {root : Nat} (h : Paged s root) : (tablePages s.mem root).Nodup :=
  Radix.nodup_nodes List.mem_finRange (List.nodup_finRange 512) _ h.wellFormed.separate

theorem blocks_congr {P : Process} {m m' : Mem}
    (h : Set.EqOn m' m (area (tableTree m 2 P.archProc.pageTable))) : P.blocks m' = P.blocks m := by
  unfold Process.blocks ArchProcess.blocks tablePages
  rw [tableTree_congr h]

/-- a process that the others leave alone -/
theorem Held.congr {s s' : Heap} {P : Process} (h : Held s P)
    (hmem : P.Alive → Set.EqOn s'.mem s.mem (area (tableTree s.mem 2 P.archProc.pageTable)))
    (hlive : P.Alive → ∀ p, (tableTree s.mem 2 P.archProc.pageTable).Has p → (p, 4096) ∈ s'.blocks) : Held s' P := by
  refine ⟨h.free, h.bare, fun ha => ?_, fun ha => (h.owned ha).trans (blocks_congr (hmem ha)).symm⟩
  have hw := (h.paged ha).congr (hmem ha)
  refine ⟨⟨hw.wellFormed.aligned, hw.wellFormed.fits, hw.wellFormed.separate, fun p hp => ?_⟩, hw.deep⟩
  refine ⟨(hw.wellFormed.live p hp).1, hlive ha p ?_⟩
  rw [← tableTree_congr (hmem ha)]
  exact hp

section held
variable {m : Manager} {i j : Nat} {P Q : Process} (h : Booked m)
include h

theorem Booked.live (hi : m.ptable[i]? = some P) {b : Block} (hb : b ∈ P.owned) : b ∈ m.heap.blocks := by
  have h₁ := List.count_pos_iff.mpr hb
  have h₂ := count_ledger b hi
  have h₃ := h.ledger b
  unfold Manager.ledger at h₃
  exact List.count_pos_iff.mp (by omega)

/-- blocks of two processes do not overlap -/
theorem Booked.apart (hne : i ≠ j) (hi : m.ptable[i]? = some P) (hj : m.ptable[j]? = some Q) {b d : Block}
    (hb : b ∈ P.owned) (hd : d ∈ Q.owned) : Disjoint (Mem.range b.1 b.2) (Mem.range d.1 d.2) := by
  refine h.tidy.disjoint fun x => ?_
  have h₂ := count_ledger_two x hne hi hj
  have h₃ := h.ledger x
  unfold Manager.ledger at h₃
  have hb' : [b].count x ≤ P.owned.count x := List.Sublist.count_le _ (List.singleton_sublist.mpr hb)
  have hd' : [d].count x ≤ Q.owned.count x := List.Sublist.count_le _ (List.singleton_sublist.mpr hd)
  have hsplit : ([b] ++ [d]).count x = [b].count x + [d].count x := List.count_append
  rw [List.singleton_append] at hsplit
  omega

/-- the trap frame of a process and its tables -/
theorem Booked.apart_own (hi : m.ptable[i]? = some P) (ha : P.Alive) {p : Nat}
    (hp : (tableTree m.heap.mem 2 P.archProc.pageTable).Has p) :
    Disjoint (Mem.range P.archProc.trapFrame 4096) (Mem.range p 4096) := by
  refine h.tidy.disjoint (b := (P.archProc.trapFrame, 4096)) (c := (p, 4096)) fun x => ?_
  have h₂ := count_ledger x hi
  have h₃ := h.ledger x
  unfold Manager.ledger at h₃
  have hsub : [(p, 4096), (P.archProc.trapFrame, 4096)].Sublist P.owned := by
    rw [(h.held i P hi).owned ha]
    unfold Process.blocks ArchProcess.blocks
    refine List.Sublist.trans (List.Sublist.trans ?_ (List.sublist_cons_self _ _)) (List.sublist_append_left _ _)
    refine List.Sublist.append (show [(p, 4096)].Sublist _ from ?_) (List.singleton_sublist.mpr List.mem_cons_self)
    exact List.singleton_sublist.mpr (List.mem_map_of_mem (mem_tablePages.mpr hp))
  have hle := hsub.count_le x
  have hperm : [(P.archProc.trapFrame, 4096), (p, 4096)].count x = [(p, 4096), (P.archProc.trapFrame, 4096)].count x :=
    (List.Perm.swap _ _ _).count_eq x
  omega

theorem mem_owned_of_has (hi : m.ptable[i]? = some P) (ha : P.Alive) {p : Nat}
    (hp : (tableTree m.heap.mem 2 P.archProc.pageTable).Has p) : (p, 4096) ∈ P.owned := by
  rw [(h.held i P hi).owned ha]
  refine List.mem_append_left _ (List.mem_cons_of_mem _ (List.mem_append_left _ ?_))
  exact List.mem_map_of_mem (mem_tablePages.mpr hp)

theorem Booked.trapFrame_mem (hi : m.ptable[i]? = some P) (ha : P.Alive) : (P.archProc.trapFrame, 4096) ∈ P.owned := by
  rw [(h.held i P hi).owned ha]
  exact List.mem_append_left _ (List.mem_cons_of_mem _ (List.mem_append_right _ List.mem_cons_self))

/-- the trap frame of a process and the tables of any -/
theorem Booked.frame_apart (hi : m.ptable[i]? = some P) (hP : P.Alive) (hj : m.ptable[j]? = some Q) (hQ : Q.Alive) :
    Disjoint (Mem.range P.archProc.trapFrame 4096) (area (tableTree m.heap.mem 2 Q.archProc.pageTable)) := by
  rw [Set.disjoint_right]
  intro a ⟨q, hq, haq⟩ haf
  by_cases hij : i = j
  · subst hij
    cases hi.symm.trans hj
    exact Set.disjoint_left.mp (h.apart_own hi hP hq) haf haq
  · exact Set.disjoint_left.mp (h.apart hij hi hj (h.trapFrame_mem hi hP) (mem_owned_of_has h hj hQ hq)) haf haq

/-- the tables of two processes -/
theorem Booked.area_apart (hne : i ≠ j) (hi : m.ptable[i]? = some P) (hP : P.Alive) (hj : m.ptable[j]? = some Q)
    (hQ : Q.Alive) : Disjoint (area (tableTree m.heap.mem 2 P.archProc.pageTable))
      (area (tableTree m.heap.mem 2 Q.archProc.pageTable)) := by
  rw [Set.disjoint_right]
  intro a ⟨q, hq, haq⟩ ⟨p, hp, hap⟩
  exact Set.disjoint_left.mp (h.apart hne hi hj (mem_owned_of_has h hi hP hp) (mem_owned_of_has h hj hQ hq)) hap haq

/-- one process changes, the others are left alone -/
theorem Booked.set (hi : m.ptable[i]? = some P) {s' : Heap} {P' : Process} (htidy : Tidy s'.blocks)
    (hled : ∀ b, m.ledger.count b + P'.owned.count b ≤ s'.blocks.count b + P.owned.count b) (hself : Held s' P')
    (hothers : ∀ j Q, j ≠ i → m.ptable[j]? = some Q → Held s' Q) :
    Booked { m with heap := s', ptable := m.ptable.set i P' } := by
  refine ⟨h.stray, htidy, fun b => ?_, fun j Q hj => ?_⟩
  · have h₁ := count_ledger_set b P' hi
    have h₂ := hled b
    unfold Manager.ledger at h₂ ⊢
    dsimp only
    omega
  · by_cases hij : j = i
    · subst hij
      have hlt : j < m.ptable.length := (List.getElem?_eq_some_iff.mp hi).1
      dsimp only at hj
      rw [List.getElem?_set_self hlt] at hj
      cases hj
      exact hself
    · dsimp only at hj
      rw [List.getElem?_set_ne (Ne.symm hij)] at hj
      exact hothers j Q hij hj

/-- memory that meets no table of a process -/
theorem Booked.held_write (hj : m.ptable[j]? = some Q) {s' : Heap} {K : Set Nat}
    (hmem : Set.EqOn s'.mem m.heap.mem Kᶜ) (hK : Q.Alive → Disjoint K (area (tableTree m.heap.mem 2 Q.archProc.pageTable)))
    (hblocks : ∀ b ∈ m.heap.blocks, b ∈ s'.blocks) : Held s' Q := by
  refine (h.held j Q hj).congr (fun ha => ?_) fun ha p hp => ?_
  · exact hmem.mono (Set.subset_compl_iff_disjoint_left.mpr (hK ha))
  · exact hblocks _ (((h.held j Q hj).paged ha).wellFormed.live p hp).2

end held

/-! ## steps -/

/-- a process is created and not set up -/
theorem Booked.create {A : PageAllocator} {m : Manager} {tf ks : Nat} (h : Booked m)
    (htf : A.next m.heap.blocks 4096 = some tf)
    (hks : A.next ((tf, 4096) :: m.heap.blocks) kernelStackSize = some ks) :
    Booked ⟨⟨m.heap.mem.zero tf 4096, (ks, kernelStackSize) :: (tf, 4096) :: m.heap.blocks⟩,
      m.ptable ++ [⟨false, ⟨dangling, tf, 0, 0, []⟩, ks, [(tf, 4096), (ks, kernelStackSize)]⟩], m.stray⟩ := by
  have htidy : Tidy ((tf, 4096) :: m.heap.blocks) := List.pairwise_cons.mpr ⟨A.fresh _ _ _ htf, h.tidy⟩
  refine ⟨h.stray, List.pairwise_cons.mpr ⟨A.fresh _ _ _ hks, htidy⟩, fun b => ?_, fun j Q hj => ?_⟩
  · have hled := h.ledger b
    unfold Manager.ledger at hled ⊢
    dsimp only
    rw [List.flatMap_append, List.count_append, List.flatMap_singleton, List.count_cons, List.count_cons, List.count_cons,
      List.count_cons, List.count_nil]
    omega
  · dsimp only at hj
    rcases Nat.lt_or_ge j m.ptable.length with hlt | hge
    · rw [List.getElem?_append_left hlt] at hj
      refine h.held_write hj (K := Mem.range tf 4096) (Mem.zero_eqOn disjoint_compl_right) (fun ha => ?_) fun b hb =>
        List.mem_cons_of_mem _ (List.mem_cons_of_mem _ hb)
      exact ((h.held j Q hj).paged ha).shielded tf 4096 (A.aligned _ _ _ htf) (A.fresh _ _ _ htf)
    · rw [List.getElem?_append_right hge] at hj
      obtain ⟨-, rfl⟩ : j - m.ptable.length = 0 ∧ Q = _ := by
        rcases hk : j - m.ptable.length with _ | k
        · rw [hk] at hj
          cases hj
          exact ⟨rfl, rfl⟩
        · rw [hk] at hj
          cases hj
      exact ⟨nofun, fun _ _ => rfl, fun ha => absurd rfl ha.2, fun ha => absurd rfl ha.2⟩

/-- the kernel stack stays with the process -/
theorem kernelStack_mem {s : Heap} {P : Process} (h : Held s P) (hf : P.free = false) :
    (P.kernelStack, kernelStackSize) ∈ P.owned := by
  by_cases hp : P.archProc.pageTable = dangling
  · rw [h.bare hf hp]
    simp
  · rw [h.owned ⟨hf, hp⟩]
    exact List.mem_append_right _ List.mem_cons_self

/-- tables that are listed once each, and are all in `ts` -/
theorem count_tablePages {s : Heap} {root : Nat} {ts : List Nat} (hw : Paged s root)
    (hts : ∀ p, (tableTree s.mem 2 root).Has p → p ∈ ts) (b : Block) :
    ((tablePages s.mem root).map (·, 4096)).count b ≤ (ts.map (·, 4096)).count b := by
  have hnd : ((tablePages s.mem root).map (·, 4096)).Nodup := (nodup_tablePages hw).map fun _ _ he => (Prod.mk.inj he).1
  have hsub : ((tablePages s.mem root).map (·, 4096)).Subperm (ts.map (·, 4096)) := by
    refine hnd.subperm fun x hx => ?_
    obtain ⟨p, hp, rfl⟩ := List.mem_map.mp hx
    exact List.mem_map_of_mem (hts p (mem_tablePages.mp hp))
  exact hsub.count_le b

theorem count_blocks (m : Mem) (P : Process) (b : Block) : (P.blocks m).count b
    = [(P.archProc.userStack, P.archProc.userStackSize)].count b + ((tablePages m P.archProc.pageTable).map (·, 4096)).count b
      + [(P.archProc.trapFrame, 4096)].count b + (P.archProc.segmentBuffers.map Segment.block).count b
      + [(P.kernelStack, kernelStackSize)].count b := by
  unfold Process.blocks ArchProcess.blocks
  rw [List.count_append, ← List.singleton_append, List.count_append, List.count_append,
    ← List.singleton_append (x := (P.archProc.trapFrame, 4096)), List.count_append]
  omega

theorem dangling_not_aligned : ¬ 4096 ∣ dangling := by decide

/-- a store to a field of the trap frame -/
theorem write_field {s : Heap} {tf o : Nat} {w : Word} (ho : o + 8 ≤ 4096) :
    Set.EqOn (s.write (tf + o) w).mem s.mem (Mem.range tf 4096)ᶜ := by
  refine Mem.writeWord_eqOn ?_
  rw [Set.disjoint_compl_right_iff_subset]
  exact Mem.range_mono (Nat.le_add_right _ _) (by omega)

section setup
variable {A : PageAllocator} {c : Code} {m : Manager} {pid : Nat} {P : Process} (h : Booked m)
  (hP : m.ptable[pid]? = some P)
include h hP

theorem Booked.setup (hf : P.free = false) (hserve : Serves A [4096] 11 m.heap.blocks) :
    ∃ m' P', setupProcess A c pid m = some m' ∧ Booked m' ∧ m'.ptable = m.ptable.set pid P' ∧ P'.Alive ∧
      P'.archProc.userStackSize = 4096 := by
  obtain ⟨tf, htf, hserve⟩ := hserve 4096 (List.mem_singleton.mpr rfl)
  obtain ⟨s₁, hs₁⟩ : ∃ t : Heap, t = ⟨m.heap.mem.zero tf 4096, (tf, 4096) :: m.heap.blocks⟩ := ⟨_, rfl⟩
  have hnew : ArchProcess.new A m.heap = (⟨dangling, tf, 0, 0, []⟩, s₁) := by
    unfold ArchProcess.new
    rw [allocZeroed_of_next htf, hs₁]
  obtain ⟨root, stack, s₂, ts, hsetup, hs⟩ := setupUser_spec ⟨c.trampoline, BitVec.ofNat 64 tf, c.killme⟩
    (show Serves A [4096] 10 s₁.blocks by rw [hs₁]; exact hserve)
  -- the trap frame of the new `arch_proc`
  have hsafe : Safe s₂ root (Mem.range tf 4096) :=
    (hs.kept _ (shielded_block (b := (tf, 4096)) (by rw [hs₁]; exact List.mem_cons_self) subset_rfl)).1
  obtain ⟨s₃, hs₃⟩ : ∃ t : Heap, t = (s₂.write (tf + 48) userStackStart).write (tf + 40) killme := ⟨_, rfl⟩
  have hmem₃ : Set.EqOn s₃.mem s₂.mem (Mem.range tf 4096)ᶜ := by
    rw [hs₃]
    exact (write_field (by decide)).trans (write_field (by decide))
  have hblk₃ : s₃.blocks = s₂.blocks := by rw [hs₃]; rfl
  have harea : Set.EqOn s₃.mem s₂.mem (area (tableTree s₂.mem 2 root)) :=
    hmem₃.mono (Set.subset_compl_iff_disjoint_left.mpr hsafe.apart)
  have hpaged : Paged s₃ root := by
    have := hs.pinned.paged.congr harea
    rw [← hblk₃] at this
    exact this
  obtain ⟨P', hP'⟩ : ∃ Q : Process, Q = { P with archProc := ⟨root, tf, stack, userStackSize.toNat, []⟩ } := ⟨_, rfl⟩
  have hroot : root ≠ dangling := fun he => dangling_not_aligned (he ▸ hpaged.wellFormed.aligned)
  refine ⟨{ m with heap := s₃, ptable := m.ptable.set pid { P' with owned := P'.blocks s₃.mem } }, _, ?_, ?_, rfl, ?_, ?_⟩
  · unfold setupProcess
    rw [hP]
    dsimp only
    rw [hnew]
    dsimp only
    unfold ArchProcess.init
    dsimp only
    rw [hsetup, hP', hs₃]
    rfl
  · refine h.set hP ?_ (fun b => ?_) ?_ fun j Q hj hQ => ?_
    · rw [hblk₃]
      refine hs.tidy ?_
      rw [hs₁]
      exact List.pairwise_cons.mpr ⟨A.fresh _ _ _ htf, h.tidy⟩
    · have hled := h.ledger b
      have hcount := hs.count b
      have hs₁c : s₁.blocks.count b = [(tf, 4096)].count b + m.heap.blocks.count b := by
        rw [hs₁, ← List.count_append]
        rfl
      have htree : tableTree s₃.mem 2 root = tableTree s₂.mem 2 root := tableTree_congr harea
      have htabs := count_tablePages hpaged (fun p hp => hs.pages p (htree ▸ hp)) b
      have hks : [(P.kernelStack, kernelStackSize)].count b ≤ P.owned.count b :=
        List.Sublist.count_le _ (List.singleton_sublist.mpr (kernelStack_mem (h.held pid P hP) hf))
      have hblocks := count_blocks s₃.mem P' b
      rw [hP'] at hblocks
      dsimp only at hblocks
      have hsize : userStackSize.toNat = 4096 := by decide
      rw [hsize, List.map_nil, List.count_nil] at hblocks
      rw [hblk₃, hP']
      dsimp only
      rw [hsize]
      omega
    · refine ⟨fun ht => ?_, fun _ hd => ?_, fun _ => ?_, fun _ => rfl⟩
      · rw [hP'] at ht
        exact absurd (hf.symm.trans ht) nofun
      · rw [hP'] at hd
        exact absurd hd hroot
      · rw [hP']
        exact hpaged
    · -- the tables of the others were allocated before
      refine (h.held j Q hQ).congr (fun ha => ?_) fun ha p hp => ?_
      · have hQs := ((h.held j Q hQ).paged ha).shielded
        have htf' := hQs tf 4096 (A.aligned _ _ _ htf) (A.fresh _ _ _ htf)
        have hK := (hs.kept _ (hQs.mono (by rw [hs₁]; exact fun b => List.mem_cons_of_mem _))).2
        have hout := Set.subset_compl_iff_disjoint_left.mpr htf'
        refine (hmem₃.mono hout).trans (hK.trans ?_)
        rw [hs₁]
        exact Mem.zero_eqOn htf'
      · rw [hblk₃]
        refine hs.live ?_
        rw [hs₁]
        exact List.mem_cons_of_mem _ (((h.held j Q hQ).paged ha).wellFormed.live p hp).2
  · rw [hP']
    exact ⟨hf, hroot⟩
  · rw [hP']
    exact (by decide : userStackSize.toNat = 4096)

/-- loading a program into the tables of a process -/
theorem Booked.load {σ : Type} {B : BackingFileSystem σ} (hB : Bounded B) {parse : List UInt8 → Option Object}
    {path : String} {fs : FileSystem σ} (ha : P.Alive)
    (hok : ∀ bytes, fileBytes B path fs = some bytes → Loadable A parse bytes m.heap) {m' : Manager}
    (hload : loadProgram A pid B parse path fs m = some m') : Booked m' := by
  have hheld := h.held pid P hP
  have hw := hheld.paged ha
  unfold loadProgram at hload
  rw [hP] at hload
  dsimp only at hload
  obtain ⟨⟨p, s'⟩, hinit, rfl⟩ := Option.map_eq_some_iff.mp hload
  obtain ⟨⟨res, s₁, fs₁⟩, hexe, hinit⟩ := Option.bind_eq_some_iff.mp hinit
  cases res with
  | error e => cases hinit
  | ok info =>
    cases hinit
    obtain ⟨⟨ts, bs, hg, hsegs⟩, -⟩ := loadExe_grows hB hw hok hexe
    dsimp only at hg
    obtain ⟨s', hs'⟩ : ∃ t : Heap, t = s₁.write (P.archProc.trapFrame + 24) info.entry := ⟨_, rfl⟩
    have hmem' : Set.EqOn s'.mem s₁.mem (Mem.range P.archProc.trapFrame 4096)ᶜ := by
      rw [hs']
      exact write_field (by decide)
    have hblk' : s'.blocks = s₁.blocks := by rw [hs']; rfl
    -- the trap frame is none of the tables, the new ones included
    have hsafe : Safe m.heap P.archProc.pageTable (Mem.range P.archProc.trapFrame 4096) :=
      ⟨shielded_block (h.live hP (h.trapFrame_mem hP ha)) subset_rfl, h.frame_apart hP ha hP ha⟩
    have harea : Set.EqOn s'.mem s₁.mem (area (tableTree s₁.mem 2 P.archProc.pageTable)) :=
      hmem'.mono (Set.subset_compl_iff_disjoint_left.mpr (hg.keeps.safe _ hsafe).1.apart)
    have hpaged : Paged s' P.archProc.pageTable := by
      have := hg.keeps.paged.congr harea
      rw [← hblk'] at this
      exact this
    rw [← hs']
    refine h.set hP ?_ (fun b => ?_) ?_ fun j Q hj hQ => ?_
    · rw [hblk']
      exact hg.tidy h.tidy
    · have hled := h.ledger b
      have hcount := hg.count b
      have hseg := hsegs info rfl b
      have htree : tableTree s'.mem 2 P.archProc.pageTable = tableTree s₁.mem 2 P.archProc.pageTable :=
        tableTree_congr harea
      have hpages : ∀ p, (tableTree s'.mem 2 P.archProc.pageTable).Has p →
          p ∈ ts ++ tablePages m.heap.mem P.archProc.pageTable := by
        intro p hp
        rw [htree] at hp
        rcases hg.pages p hp with hp | hp
        · exact List.mem_append_right _ (mem_tablePages.mpr hp)
        · exact List.mem_append_left _ hp
      have htabs := count_tablePages hpaged hpages b
      rw [List.map_append, List.count_append] at htabs
      have hold := count_blocks m.heap.mem P b
      rw [← hheld.owned ha] at hold
      have hnew := count_blocks s'.mem { P with archProc := { P.archProc with segmentBuffers := info.segmentBuffers } } b
      dsimp only at hnew
      rw [hblk']
      dsimp only
      omega
    · exact ⟨fun ht => absurd (ha.1.symm.trans ht) nofun, fun _ hd => absurd hd ha.2, fun _ => hpaged, fun _ => rfl⟩
    · refine (h.held j Q hQ).congr (fun hq => ?_) fun hq p hp => ?_
      · have hQs : Safe m.heap P.archProc.pageTable (area (tableTree m.heap.mem 2 Q.archProc.pageTable)) :=
          ⟨((h.held j Q hQ).paged hq).shielded, h.area_apart hj hQ hq hP ha⟩
        refine (hmem'.mono ?_).trans (hg.keeps.safe _ hQs).2
        exact Set.subset_compl_iff_disjoint_left.mpr (h.frame_apart hP ha hQ hq)
      · rw [hblk']
        exact hg.keeps.blocks _ (((h.held j Q hQ).paged hq).wellFormed.live p hp).2

end setup

/-- pages that are live until their turn comes -/
def Standing (m : Mem) (L : List Nat) (a : Account) : Prop :=
  L.Nodup ∧ ∀ p ∈ L, (p, 4096) ∈ a.heap.blocks ∧ Set.EqOn a.heap.mem m (Mem.range p 4096)

theorem readable_standing (D : Deallocator) (m : Mem) : Readable D m (Standing m) := by
  refine ⟨fun h hp => (h.2 _ hp).2, fun {p L a} ⟨hnd, h⟩ => ?_⟩
  obtain ⟨hp, hnd⟩ := List.nodup_cons.mp hnd
  have hlive : (p, 4096) ∈ a.heap.blocks := (h p List.mem_cons_self).1
  refine ⟨hnd, fun q hq => ?_⟩
  obtain ⟨hq', hm⟩ := h q (List.mem_cons_of_mem _ hq)
  have hne : (q, 4096) ≠ (p, 4096) := fun he => hp ((Prod.mk.inj he).1 ▸ hq)
  have hstay : (q, 4096) ∈ a.heap.blocks.erase (p, 4096) := (List.mem_erase_of_ne hne).mpr hq'
  unfold Account.dealloc
  rw [if_pos hlive]
  exact ⟨hstay, (D.spares _ _ _ hstay).trans hm⟩

section kill
variable {D : Deallocator} {m : Manager} {pid : Nat} {P : Process} (h : Booked m) (hP : m.ptable[pid]? = some P)
include h hP

theorem Booked.owned_le (b : Block) : P.owned.count b ≤ m.heap.blocks.count b :=
  (count_ledger b hP).trans (h.ledger b)

variable (ha : P.Alive)
include ha

/-- `kill` gives back what the process has -/
theorem Booked.kill_eq (D : Deallocator) : kill D pid m = some
    ⟨((⟨m.heap, m.stray, P.owned⟩ : Account).deallocAll D P.owned).heap, m.ptable.set pid { P with free := true, owned := [] },
      ((⟨m.heap, m.stray, P.owned⟩ : Account).deallocAll D P.owned).stray⟩ := by
  have hheld := h.held pid P hP
  have hw := hheld.paged ha
  obtain ⟨a, hacc⟩ : ∃ a : Account, a = ⟨m.heap, m.stray, P.owned⟩ := ⟨_, rfl⟩
  have howned := hheld.owned ha
  -- the user stack goes first
  have hstack : ∀ b, [(P.archProc.userStack, P.archProc.userStackSize)].count b ≤ a.heap.blocks.count b := by
    intro b
    have h₁ := h.owned_le hP b
    have h₂ := count_blocks m.heap.mem P b
    rw [← howned] at h₂
    rw [hacc]
    dsimp only
    omega
  have hgiven := Account.deallocAll_spec (D := D) _ a hstack
  have hI : Standing m.heap.mem (tablePages m.heap.mem P.archProc.pageTable ++ [])
      (a.dealloc D (P.archProc.userStack, P.archProc.userStackSize)) := by
    rw [List.append_nil]
    refine ⟨nodup_tablePages hw, fun p hp => ?_⟩
    have hpos : 0 < ((tablePages m.heap.mem P.archProc.pageTable).map (·, 4096)).count (p, 4096) :=
      List.count_pos_iff.mpr (List.mem_map_of_mem hp)
    have h₁ := h.owned_le hP (p, 4096)
    have h₂ := count_blocks m.heap.mem P (p, 4096)
    rw [← howned] at h₂
    have h₃ := hgiven.count (p, 4096)
    rw [hacc] at h₃
    dsimp only at h₃
    refine ⟨List.count_pos_iff.mp ?_, ?_⟩
    · rw [hacc]
      rw [deallocAll_singleton] at h₃
      omega
    · have hm := hgiven.mem (p, 4096) (by rw [hacc]; dsimp only; omega)
      rw [hacc] at hm ⊢
      exact hm
  have hfree := free_eq (readable_standing D m.heap.mem) (p := P.archProc) (a := a) hw.wellFormed.sound hI
  have hall : (a.deallocAll D (P.archProc.blocks m.heap.mem)).dealloc D (P.kernelStack, kernelStackSize)
      = a.deallocAll D P.owned := by
    rw [howned, Process.blocks, Account.deallocAll_append, deallocAll_singleton]
  have hdiff : (a.deallocAll D P.owned).owned = [] := by
    rw [Account.deallocAll_owned, hacc]
    exact Account.diff_self _
  unfold kill
  rw [hP]
  dsimp only
  rw [← hacc, hfree, Option.map_some, hall, hdiff]

theorem Booked.killed : ∃ m', kill D pid m = some m' ∧ Booked m' := by
  obtain ⟨a, hacc⟩ : ∃ a : Account, a = ⟨m.heap, m.stray, P.owned⟩ := ⟨_, rfl⟩
  have hgiven := Account.deallocAll_spec (D := D) P.owned a (by rw [hacc]; exact h.owned_le hP)
  refine ⟨_, h.kill_eq hP ha D, ?_⟩
  rw [← hacc]
  have hcount : ∀ b, (a.deallocAll D P.owned).heap.blocks.count b + P.owned.count b = m.heap.blocks.count b := by
    intro b
    rw [hgiven.count b, hacc]
  have hstray : (a.deallocAll D P.owned).stray = m.stray := hgiven.stray.trans (by rw [hacc])
  rw [hstray]
  refine h.set hP ?_ (fun b => ?_) ⟨fun _ => rfl, nofun, fun hd => absurd hd.1 nofun, fun hd => absurd hd.1 nofun⟩
    fun j Q hj hQ => ?_
  · refine List.Pairwise.sublist hgiven.sublist ?_
    rw [hacc]
    exact h.tidy
  · have h₁ := h.ledger b
    have h₂ := hcount b
    rw [List.count_nil]
    omega
  · -- what the others have stays live
    have hstay : Q.Alive → ∀ p, (tableTree m.heap.mem 2 Q.archProc.pageTable).Has p →
        P.owned.count (p, 4096) < m.heap.blocks.count (p, 4096) := by
      intro hq p hp
      have hpos := List.count_pos_iff.mpr (mem_owned_of_has h hQ hq hp)
      have h₁ := count_ledger_two (p, 4096) (Ne.symm hj) hP hQ
      have h₂ := h.ledger (p, 4096)
      unfold Manager.ledger at h₂
      omega
    refine (h.held j Q hQ).congr (fun hq => ?_) fun hq p hp => ?_
    · intro x ⟨p, hp, hx⟩
      have hm := hgiven.mem (p, 4096) (by rw [hacc]; exact hstay hq p hp)
      rw [show a.heap = m.heap by rw [hacc]] at hm
      exact hm hx
    · have h₁ := hstay hq p hp
      have h₂ := hcount (p, 4096)
      exact List.count_pos_iff.mp (by omega)

end kill

/-! ## whole runs -/

/-- **A proper step**: the allocator can serve it, and it is about a process that is not `Free`, and that has been set
up where it has to be; what else happens leaves alone the blocks and the tables of the processes. -/
def Act.Proper {σ : Type} (A : PageAllocator) (m : Manager) : Act σ → Prop
  | .createProcess _ => Serves A [4096, kernelStackSize] 13 m.heap.blocks
  | .setupProcess pid => ∀ P, m.ptable[pid]? = some P → P.free = false ∧ Serves A [4096] 11 m.heap.blocks
  | .loadProgram pid B _ parse path fs => ∀ P, m.ptable[pid]? = some P → P.Alive ∧
    ∀ bytes, fileBytes B path fs = some bytes → Loadable A parse bytes m.heap
  | .kill pid => ∀ P, m.ptable[pid]? = some P → P.Alive
  | .other s' => Tidy s'.blocks ∧ (∀ b, m.ledger.count b ≤ s'.blocks.count b) ∧ ∀ P ∈ m.ptable, P.Alive →
    Set.EqOn s'.mem m.heap.mem (area (tableTree m.heap.mem 2 P.archProc.pageTable))

section run
variable {σ : Type} {A : PageAllocator} {D : Deallocator} {c : Code} {m m' : Manager} (h : Booked m)
include h

theorem Booked.created (doSetup : Bool) (hserve : Serves A [4096, kernelStackSize] 13 m.heap.blocks) :
    ∃ m', createProcess A c doSetup m = some m' ∧ Booked m' ∧ (doSetup = true → ∃ P, m'.ptable = m.ptable ++ [P] ∧
      P.Alive ∧ P.archProc.userStackSize = 4096) := by
  obtain ⟨tf, htf, hserve⟩ := hserve 4096 (by simp)
  obtain ⟨ks, hks, hserve⟩ := hserve kernelStackSize (by simp)
  have hb := h.create htf hks
  obtain ⟨m₁, hm₁⟩ : ∃ t : Manager, t = ⟨⟨m.heap.mem.zero tf 4096, (ks, kernelStackSize) :: (tf, 4096) :: m.heap.blocks⟩,
      m.ptable ++ [⟨false, ⟨dangling, tf, 0, 0, []⟩, ks, [(tf, 4096), (ks, kernelStackSize)]⟩], m.stray⟩ := ⟨_, rfl⟩
  rw [← hm₁] at hb
  have heq : createProcess A c doSetup m = if doSetup then setupProcess A c m.ptable.length m₁ else some m₁ := by
    unfold createProcess ArchProcess.new
    rw [allocZeroed_of_next htf]
    dsimp only
    rw [alloc_of_next hks, hm₁]
  rw [heq]
  cases doSetup with
  | false => exact ⟨m₁, rfl, hb, nofun⟩
  | true =>
    have hlast : m₁.ptable[m.ptable.length]?
        = some ⟨false, ⟨dangling, tf, 0, 0, []⟩, ks, [(tf, 4096), (ks, kernelStackSize)]⟩ := by
      rw [hm₁]
      exact List.getElem?_concat_length
    obtain ⟨m₂, P, hsetup, hb₂, hpt, hal, hsize⟩ := hb.setup (A := A) (c := c) hlast rfl
      (by rw [hm₁]; exact hserve.mono (by simp) (by decide))
    refine ⟨m₂, hsetup, hb₂, fun _ => ⟨P, ?_, hal, hsize⟩⟩
    rw [hpt, hm₁]
    exact List.set_append_right _ _ (Nat.le_refl _) |>.trans (by rw [Nat.sub_self]; rfl)

theorem Booked.step {a : Act σ} (hok : a.Proper A m) (hstep : a.step A D c m = some m') : Booked m' := by
  cases a with
  | createProcess doSetup =>
    obtain ⟨m₁, hm₁, hb, -⟩ := h.created (c := c) doSetup hok
    cases hm₁.symm.trans hstep
    exact hb
  | setupProcess pid =>
    cases hP : m.ptable[pid]? with
    | none =>
      have he : setupProcess A c pid m = some m := by
        unfold setupProcess
        rw [hP]
      cases he.symm.trans hstep
      exact h
    | some P =>
      obtain ⟨m₁, -, hm₁, hb, -⟩ := h.setup (c := c) hP (hok P hP).1 (hok P hP).2
      cases hm₁.symm.trans hstep
      exact hb
  | loadProgram pid B hB parse path fs =>
    cases hP : m.ptable[pid]? with
    | none =>
      have he : loadProgram A pid B parse path fs m = some m := by
        unfold loadProgram
        rw [hP]
      cases he.symm.trans hstep
      exact h
    | some P => exact h.load hP hB (hok P hP).1 (hok P hP).2 hstep
  | kill pid =>
    cases hP : m.ptable[pid]? with
    | none =>
      have he : kill D pid m = some m := by
        unfold kill
        rw [hP]
      cases he.symm.trans hstep
      exact h
    | some P =>
      obtain ⟨m₁, hm₁, hb⟩ := h.killed (D := D) hP (hok P hP)
      cases hm₁.symm.trans hstep
      exact hb
  | other s' =>
    cases hstep
    obtain ⟨htidy, hled, hmem⟩ := hok
    refine ⟨h.stray, htidy, hled, fun i P hP => ?_⟩
    have hP : m.ptable[i]? = some P := hP
    refine (h.held i P hP).congr (hmem P (List.mem_of_getElem? hP)) fun ha p hp => ?_
    have h₁ := List.count_pos_iff.mpr (mem_owned_of_has h hP ha hp)
    have h₂ := count_ledger (p, 4096) hP
    have h₃ := hled (p, 4096)
    unfold Manager.ledger at h₃
    show (p, 4096) ∈ s'.blocks
    exact List.count_pos_iff.mp (by omega)

end run

/-- no process yet -/
structure Blank (m : Manager) : Prop where
  ptable : m.ptable = []
  stray : m.stray = []
  tidy : Tidy m.heap.blocks

theorem Blank.booked {m : Manager} (h : Blank m) : Booked m := by
  refine ⟨h.stray, h.tidy, fun b => ?_, fun i P hP => ?_⟩
  · unfold Manager.ledger
    rw [h.ptable]
    exact Nat.zero_le _
  · rw [h.ptable] at hP
    cases hP

/-- **The memory of processes is given back once.** In a run of proper steps every block that is deallocated is live,
what a process has is what its fields lead to, live and its own, and a killed process has nothing. -/
theorem resources_released {σ : Type} (A : PageAllocator) (D : Deallocator) (c : Code) (m₀ m : Manager) (h₀ : Blank m₀)
    (as : List (Act σ)) (hok : Trace.Throughout (Act.step A D c) (Act.Proper A) as m₀)
    (hrun : Trace.run (Act.step A D c) as m₀ = some m) :
    m.stray = [] ∧ (∀ P ∈ m.ptable, P.free = true → P.owned = []) ∧
      (∀ P ∈ m.ptable, P.Alive → P.owned = P.blocks m.heap.mem) ∧
      ∀ b, (m.ptable.flatMap Process.owned).count b ≤ m.heap.blocks.count b := by
  have h : Booked m := Trace.invariant (Act.Proper A) Booked (fun _ _ _ hs hok hstep => hs.step hok hstep) as h₀.booked
    hok hrun
  refine ⟨h.stray, fun P hP => ?_, fun P hP => ?_, h.ledger⟩
  · obtain ⟨i, hi⟩ := List.mem_iff_getElem?.mp hP
    exact (h.held i P hi).free
  · obtain ⟨i, hi⟩ := List.mem_iff_getElem?.mp hP
    exact (h.held i P hi).owned

/-! ## killed twice -/

/-- a deallocator that writes nothing -/
def quiet : Deallocator := ⟨fun s _ => s.mem, fun _ _ _ _ _ _ => rfl⟩

theorem quiet_mem (l : List Block) : ∀ a : Account, (a.deallocAll quiet l).heap.mem = a.heap.mem := by
  induction l with
  | nil => exact fun _ => rfl
  | cons b l ih =>
    intro a
    refine (ih (a.dealloc quiet b)).trans ?_
    unfold Account.dealloc
    split <;> rfl

theorem readable_quiet (m : Mem) : Readable quiet m fun _ a => a.heap.mem = m := by
  refine ⟨fun h _ => ?_, fun {p L a} h => ?_⟩
  · rw [h]
    exact fun _ _ => rfl
  · exact (quiet_mem [(p, 4096)] a).trans h

/-- the second time the user stack is not live -/
theorem killed_twice {m : Manager} {pid : Nat} {P : Process} (h : Booked m) (hP : m.ptable[pid]? = some P)
    (ha : P.Alive) (hsize : P.archProc.userStackSize = 4096) :
    ∃ m₁ m₂, kill quiet pid m = some m₁ ∧ kill quiet pid m₁ = some m₂ ∧ m₂.stray ≠ [] := by
  have hw := (h.held pid P hP).paged ha
  obtain ⟨a, hacc⟩ : ∃ a : Account, a = ⟨m.heap, m.stray, P.owned⟩ := ⟨_, rfl⟩
  have hgiven := Account.deallocAll_spec (D := quiet) P.owned a (by rw [hacc]; exact h.owned_le hP)
  have hkill := h.kill_eq hP ha quiet
  rw [← hacc] at hkill
  obtain ⟨a₁, ha₁⟩ : ∃ t : Account,
      t = ⟨(a.deallocAll quiet P.owned).heap, (a.deallocAll quiet P.owned).stray, []⟩ := ⟨_, rfl⟩
  have hmem : a₁.heap.mem = m.heap.mem := by
    rw [ha₁]
    exact (quiet_mem P.owned a).trans (by rw [hacc])
  -- it was live once
  have hgone : (P.archProc.userStack, P.archProc.userStackSize) ∉ a₁.heap.blocks := by
    intro hin
    have hpos := List.count_pos_iff.mpr hin
    have hone := h.tidy.count_le_one (b := (P.archProc.userStack, P.archProc.userStackSize)) (by dsimp only; omega)
    have hcount := hgiven.count (P.archProc.userStack, P.archProc.userStackSize)
    have hown : 0 < P.owned.count (P.archProc.userStack, P.archProc.userStackSize) := by
      rw [(h.held pid P hP).owned ha]
      exact List.count_pos_iff.mpr (List.mem_append_left _ List.mem_cons_self)
    rw [ha₁] at hpos
    rw [hacc] at hcount
    dsimp only at hpos hcount
    rw [hacc] at hpos
    omega
  have hfree := free_eq (readable_quiet m.heap.mem) (p := P.archProc) (a := a₁) (L := []) hw.wellFormed.sound
    ((quiet_mem [_] a₁).trans hmem)
  have hpid : (m.ptable.set pid { P with free := true, owned := [] })[pid]? = some { P with free := true, owned := [] } :=
    List.getElem?_set_self (List.getElem?_eq_some_iff.mp hP).1
  have hfirst : (a₁.dealloc quiet (P.archProc.userStack, P.archProc.userStackSize)).stray
      = (P.archProc.userStack, P.archProc.userStackSize) :: a₁.stray := by
    unfold Account.dealloc
    rw [if_neg hgone]
  obtain ⟨a₂, ha₂⟩ : ∃ t, t = (a₁.deallocAll quiet (P.archProc.blocks m.heap.mem)).dealloc quiet
    (P.kernelStack, kernelStackSize) := ⟨_, rfl⟩
  have hlist : a₂ = a₁.deallocAll quiet (P.blocks m.heap.mem) := by
    rw [ha₂, Process.blocks, Account.deallocAll_append, deallocAll_singleton]
  have hstray : a₂.stray ≠ [] := by
    obtain ⟨rest, hrest⟩ : ∃ rest, P.blocks m.heap.mem = (P.archProc.userStack, P.archProc.userStackSize) :: rest := by
      unfold Process.blocks ArchProcess.blocks
      rw [List.cons_append]
      exact ⟨_, rfl⟩
    intro hnil
    have hsuf := Account.stray_suffix (D := quiet) rest
      (a₁.dealloc quiet (P.archProc.userStack, P.archProc.userStackSize))
    rw [hlist, hrest, deallocAll_cons] at hnil
    rw [hnil, hfirst] at hsuf
    exact absurd (List.suffix_nil.mp hsuf) nofun
  refine ⟨_, ⟨a₂.heap, (m.ptable.set pid { P with free := true, owned := [] }).set pid
    { P with free := true, owned := a₂.owned }, a₂.stray⟩, hkill, ?_, hstray⟩
  unfold kill
  dsimp only
  rw [hpid]
  dsimp only
  rw [← ha₁, hfree, Option.map_some, ← ha₂]

/-- a kernel without processes -/
def bare : Manager := ⟨freshHeap, [], []⟩

def sampleCode : Code := ⟨kernelPages.trampoline, kernelPages.killme⟩

theorem blank_bare : Blank bare := ⟨rfl, rfl, List.pairwise_singleton _ _⟩

theorem serves_bare : Serves pages [4096, kernelStackSize] 13 bare.heap.blocks :=
  serves_bump (n := kernelStackSize) (by decide) 13 (by decide)

theorem bare_created : ∃ m P, createProcess pages sampleCode true bare = some m ∧ Booked m ∧ m.ptable = [P] ∧ P.Alive ∧
    P.archProc.userStackSize = 4096 := by
  obtain ⟨m, hm, hb, hP⟩ := blank_bare.booked.created (c := sampleCode) true serves_bare
  obtain ⟨P, hpt, hal, hsize⟩ := hP rfl
  exact ⟨m, P, hm, hb, hpt, hal, hsize⟩

/-- created and killed -/
theorem resources_released_example : ∃ m, Trace.run (Act.step pages quiet sampleCode)
      [(.createProcess true : Act Unit), .kill 0] bare = some m ∧
    m.stray = [] ∧ (∀ P ∈ m.ptable, P.free = true → P.owned = []) ∧
      (∀ P ∈ m.ptable, P.Alive → P.owned = P.blocks m.heap.mem) ∧
      ∀ b, (m.ptable.flatMap Process.owned).count b ≤ m.heap.blocks.count b := by
  obtain ⟨m₁, P, hcreate, hb, hpt, hal, -⟩ := bare_created
  have hP : m₁.ptable[0]? = some P := by rw [hpt]; rfl
  obtain ⟨m₂, hkill, -⟩ := hb.killed (D := quiet) hP hal
  have hrun : Trace.run (Act.step pages quiet sampleCode) [(.createProcess true : Act Unit), .kill 0] bare = some m₂ :=
    Option.bind_eq_some_iff.mpr ⟨m₁, hcreate, Option.bind_eq_some_iff.mpr ⟨m₂, hkill, rfl⟩⟩
  refine ⟨m₂, hrun, resources_released pages quiet sampleCode bare m₂ blank_bare
    [.createProcess true, .kill 0] ⟨serves_bare, fun m hm => ?_⟩ hrun⟩
  cases hcreate.symm.trans hm
  refine ⟨fun Q hQ => ?_, fun _ _ => trivial⟩
  cases hP.symm.trans hQ
  exact hal

/-- killed twice: the user stack is given back again, and what follows it -/
theorem kill_twice : ∃ m, Trace.run (Act.step pages quiet sampleCode)
      [(.createProcess true : Act Unit), .kill 0, .kill 0] bare = some m ∧ m.stray ≠ [] := by
  obtain ⟨m₁, P, hcreate, hb, hpt, hal, hsize⟩ := bare_created
  have hP : m₁.ptable[0]? = some P := by rw [hpt]; rfl
  obtain ⟨m₂, m₃, h₂, h₃, hstray⟩ := killed_twice hb hP hal hsize
  exact ⟨m₃, Option.bind_eq_some_iff.mpr ⟨m₁, hcreate, Option.bind_eq_some_iff.mpr ⟨m₂, h₂,
    Option.bind_eq_some_iff.mpr ⟨m₃, h₃, rfl⟩⟩⟩, hstray⟩

end Citron.Loader
