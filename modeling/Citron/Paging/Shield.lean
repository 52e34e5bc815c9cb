import Citron.Lib.Release
import Citron.Paging.Range

/-!
# Memory that page tables and new blocks leave alone

* `Shielded bs K`   no page-aligned block that meets none of the blocks `bs` meets `K`;
* `Safe s root K`   moreover `K` does not meet the tables: growing the tables and allocating blocks
                    leaves `K` as it is;
* `Keeps`           what such a step does, closed under composition.

A block that starts on a page boundary shields its whole last page, also the bytes behind its end.
-/

namespace Citron.Paging

/-- blocks that do not overlap -/
def Apart (p n : Nat) (bs : List (Nat × Nat)) : Prop := ∀ b ∈ bs, p + n ≤ b.1 ∨ b.1 + b.2 ≤ p

def Shielded (bs : List (Nat × Nat)) (K : Set Nat) : Prop :=
  ∀ p n, 4096 ∣ p → Apart p n bs → Disjoint (Mem.range p n) K

theorem Shielded.mono {bs bs' : List (Nat × Nat)} {K : Set Nat} (h : Shielded bs K)
    (hb : ∀ b ∈ bs, b ∈ bs') : Shielded bs' K :=
  fun p n hp ha => h p n hp fun b hm => ha b (hb b hm)

theorem shielded_block {bs : List (Nat × Nat)} {b : Nat × Nat} (hb : b ∈ bs) {K : Set Nat}
    (hK : K ⊆ Mem.range b.1 b.2) : Shielded bs K :=
  fun _ _ _ ha => (Mem.disjoint_range (ha b hb)).mono_right hK

theorem shielded_pages {bs : List (Nat × Nat)} {p n : Nat} (hb : (p, n) ∈ bs) (hp : 4096 ∣ p) :
    Shielded bs (Mem.range p (4096 * pageCount n)) := by
  intro q k hq ha
  have h := ha _ hb
  simp only at h
  apply Mem.disjoint_range
  unfold pageCount
  omega

theorem Fresh.dvd {A : PageAllocator} {bs : List (Nat × Nat)} {ps : List Nat} (h : Fresh A bs ps) :
    ∀ p ∈ ps, 4096 ∣ p := by
  induction h with
  | nil bs => simp
  | cons hq h ih => exact List.forall_mem_cons.mpr ⟨A.aligned _ _ _ hq, ih⟩

theorem Fresh.disjoint_shielded {A : PageAllocator} {bs : List (Nat × Nat)} {ps : List Nat}
    (h : Fresh A bs ps) {K : Set Nat} (hK : Shielded bs K) : Disjoint (pageArea ps) K := by
  rw [Set.disjoint_left]
  intro a ⟨p, hp, ha⟩ hak
  exact Set.disjoint_left.mp (hK p 4096 (h.dvd p hp) (h.apart p hp)) ha hak

structure Safe (s : Heap) (root : Nat) (K : Set Nat) : Prop where
  shielded : Shielded s.blocks K
  apart : Disjoint K (area (tableTree s.mem 2 root))

theorem Safe.mono {s : Heap} {root : Nat} {K L : Set Nat} (h : Safe s root K) (hL : L ⊆ K) :
    Safe s root L :=
  ⟨fun p n hp ha => (h.shielded p n hp ha).mono_right hL, h.apart.mono_left hL⟩

/-- the tables themselves are shielded -/
theorem Paged.shielded {s : Heap} {root : Nat} (h : Paged s root) :
    Shielded s.blocks (area (tableTree s.mem 2 root)) := by
  intro p n hp ha
  rw [Set.disjoint_right]
  intro a ⟨q, hq, haq⟩ hr
  exact Set.disjoint_left.mp (Mem.disjoint_range (ha _ (h.wellFormed.live q hq).2)) hr haq

/-- a table page is its own page, or one of a table below -/
theorem aligned_tableTree {m : Mem} {i page p : Nat} (ha : 4096 ∣ page)
    (h : (tableTree m i page).Has p) : 4096 ∣ p := by
  rcases h with rfl | ⟨j, h⟩
  · exact ha
  · exact aligned_tree i _ p h

/-! ## steps -/

/-- a step of the loader: the tables stay in good order, safe memory stays as it is and safe, blocks are
only added, and every byte changed lies in a live block that starts on a page boundary -/
structure Keeps (root : Nat) (s s' : Heap) : Prop where
  paged : Paged s' root
  blocks : ∀ b ∈ s.blocks, b ∈ s'.blocks
  safe : ∀ K, Safe s root K → Safe s' root K ∧ Set.EqOn s'.mem s.mem K
  changed : ∀ a, s'.mem a ≠ s.mem a → ∃ b ∈ s'.blocks, 4096 ∣ b.1 ∧ a ∈ Mem.range b.1 b.2

theorem Keeps.refl {root : Nat} {s : Heap} (h : Paged s root) : Keeps root s s :=
  ⟨h, fun _ => id, fun _ hK => ⟨hK, fun _ _ => rfl⟩, fun _ h => absurd rfl h⟩

theorem Keeps.trans {root : Nat} {s s₁ s₂ : Heap} (h : Keeps root s s₁) (h' : Keeps root s₁ s₂) :
    Keeps root s s₂ := by
  refine ⟨h'.paged, fun b hb => h'.blocks b (h.blocks b hb), fun K hK => ?_, fun a ha => ?_⟩
  · obtain ⟨h₁, e₁⟩ := h.safe K hK
    obtain ⟨h₂, e₂⟩ := h'.safe K h₁
    exact ⟨h₂, e₂.trans e₁⟩
  · by_cases h₂ : s₂.mem a = s₁.mem a
    · rw [h₂] at ha
      obtain ⟨b, hb, hd, hr⟩ := h.changed a ha
      exact ⟨b, h'.blocks b hb, hd, hr⟩
    · exact h'.changed a h₂

/-- growing the tables -/
theorem Extended.keeps {A : PageAllocator} {root : Nat} {s s' : Heap} {ps : List Nat}
    (hw : Paged s root) (h : Extended A root s s' ps) : Keeps root s s' := by
  have hblocks : ∀ b ∈ s.blocks, b ∈ s'.blocks := by
    intro b hb
    rw [h.blocks]
    exact mem_grown.mpr (.inl hb)
  refine ⟨h.paged, hblocks, fun K hK => ?_, fun a ha => ?_⟩
  · have hps := h.fresh.disjoint_shielded hK.shielded
    have hout : Disjoint K (area (tableTree s.mem 2 root) ∪ pageArea ps) :=
      Set.disjoint_union_right.mpr ⟨hK.apart, hps.symm⟩
    refine ⟨⟨hK.shielded.mono hblocks, hout.mono_right h.area_subset⟩, ?_⟩
    exact h.frame.mono (Set.subset_compl_iff_disjoint_right.mpr hout)
  · have hin : a ∈ area (tableTree s.mem 2 root) ∪ pageArea ps := by
      by_contra hout
      exact ha (h.frame hout)
    rcases hin with ⟨p, hp, hap⟩ | ⟨p, hp, hap⟩
    · exact ⟨(p, 4096), hblocks _ (hw.wellFormed.live p hp).2,
        aligned_tableTree hw.wellFormed.aligned hp, hap⟩
    · refine ⟨(p, 4096), ?_, h.fresh.dvd p hp, hap⟩
      rw [h.blocks]
      exact mem_grown.mpr (.inr ⟨p, hp, rfl⟩)

/-- a block more -/
theorem keeps_push {root : Nat} {s : Heap} (hw : Paged s root) (b : Nat × Nat) :
    Keeps root s ⟨s.mem, b :: s.blocks⟩ := by
  have hblocks : ∀ c ∈ s.blocks, c ∈ b :: s.blocks := fun c => List.mem_cons_of_mem _
  exact ⟨⟨hw.wellFormed.congr hblocks fun _ _ => rfl, hw.deep⟩, hblocks,
    fun K hK => ⟨⟨hK.shielded.mono hblocks, hK.apart⟩, fun _ _ => rfl⟩, fun a h => absurd rfl h⟩

/-- writing to a block that was new to `s`, starts on a page boundary and holds no table -/
theorem Keeps.write {root : Nat} {s s₁ s₂ : Heap} {p n : Nat} (h : Keeps root s s₁) (hp : 4096 ∣ p)
    (ha : Apart p n s.blocks) (hb : (p, n) ∈ s₁.blocks)
    (hT : Disjoint (Mem.range p n) (area (tableTree s₁.mem 2 root))) (hbl : s₂.blocks = s₁.blocks)
    (hm : Set.EqOn s₂.mem s₁.mem (Mem.range p n)ᶜ) :
    Keeps root s s₂ ∧ tableTree s₂.mem 2 root = tableTree s₁.mem 2 root := by
  have hout : Set.EqOn s₂.mem s₁.mem (area (tableTree s₁.mem 2 root)) :=
    hm.mono (Set.subset_compl_iff_disjoint_left.mpr hT)
  have htree : tableTree s₂.mem 2 root = tableTree s₁.mem 2 root := tableTree_congr hout
  have hlive : ∀ b ∈ s₁.blocks, b ∈ s₂.blocks := fun b hb => by rwa [hbl]
  refine ⟨⟨⟨h.paged.wellFormed.congr hlive hout, ?_⟩, ?_, fun K hK => ?_, fun a hne => ?_⟩, htree⟩
  · rw [htree]
    exact h.paged.deep
  · rw [hbl]
    exact h.blocks
  · obtain ⟨hK₁, e₁⟩ := h.safe K hK
    refine ⟨⟨?_, ?_⟩, (hm.mono ?_).trans e₁⟩
    · rw [hbl]
      exact hK₁.shielded
    · rw [htree]
      exact hK₁.apart
    · exact Set.subset_compl_iff_disjoint_left.mpr (hK.shielded p n hp ha)
  · by_cases hin : a ∈ Mem.range p n
    · exact ⟨(p, n), by rw [hbl]; exact hb, hp, hin⟩
    · rw [hm hin] at hne
      obtain ⟨b, hbb, hd⟩ := h.changed a hne
      exact ⟨b, by rw [hbl]; exact hbb, hd⟩

/-- a block of zeroes -/
theorem keeps_allocZeroed {A : PageAllocator} {root : Nat} {s : Heap} {p n : Nat} (hw : Paged s root)
    (h : A.next s.blocks n = some p) :
    Keeps root s ⟨s.mem.zero p n, (p, n) :: s.blocks⟩ ∧
      tableTree (s.mem.zero p n) 2 root = tableTree s.mem 2 root :=
  (keeps_push hw (p, n)).write (A.aligned _ _ _ h) (A.fresh _ _ _ h) (List.mem_cons_self ..)
    (hw.shielded p n (A.aligned _ _ _ h) (A.fresh _ _ _ h)) rfl (Mem.zero_eqOn disjoint_compl_right)

/-- a step that also says what it allocates: the pages `ts` for tables, and the blocks `bs` -/
structure Grows (root : Nat) (s s' : Heap) (ts : List Nat) (bs : List Block) : Prop where
  keeps : Keeps root s s'
  count : ∀ b, s'.blocks.count b = (ts.map (·, 4096)).count b + bs.count b + s.blocks.count b
  tidy : Heap.Tidy s.blocks → Heap.Tidy s'.blocks
  pages : ∀ p, (tableTree s'.mem 2 root).Has p → (tableTree s.mem 2 root).Has p ∨ p ∈ ts

theorem Grows.refl {root : Nat} {s : Heap} (h : Paged s root) : Grows root s s [] [] :=
  ⟨Keeps.refl h, fun _ => (Nat.zero_add _).symm, id, fun _ => Or.inl⟩

theorem Grows.trans {root : Nat} {s s₁ s₂ : Heap} {ts ts' : List Nat} {bs bs' : List Block} (h : Grows root s s₁ ts bs)
    (h' : Grows root s₁ s₂ ts' bs') : Grows root s s₂ (ts' ++ ts) (bs' ++ bs) := by
  refine ⟨h.keeps.trans h'.keeps, fun b => ?_, fun ht => h'.tidy (h.tidy ht), fun p hp => ?_⟩
  · rw [h'.count, h.count, List.map_append, List.count_append, List.count_append]
    omega
  · rcases h'.pages p hp with hp | hp
    · exact (h.pages p hp).imp_right (List.mem_append_right _)
    · exact .inr (List.mem_append_left _ hp)

theorem count_grown (b : Block) (ps : List Nat) : ∀ bs : List Block,
    (grown bs ps).count b = (ps.map (·, 4096)).count b + bs.count b := by
  induction ps with
  | nil => exact fun bs => (Nat.zero_add _).symm
  | cons p ps ih =>
    intro bs
    rw [grown, ih, List.map_cons, List.count_cons, List.count_cons]
    omega

theorem Fresh.tidy {A : PageAllocator} {bs : List Block} {ps : List Nat} (h : Fresh A bs ps) :
    Heap.Tidy bs → Heap.Tidy (grown bs ps) := by
  induction h with
  | nil bs => exact id
  | cons hq h ih => exact fun ht => ih (List.pairwise_cons.mpr ⟨fun c hc => A.fresh _ _ _ hq c hc, ht⟩)

theorem Extended.grows {A : PageAllocator} {root : Nat} {s s' : Heap} {ps : List Nat} (hw : Paged s root)
    (h : Extended A root s s' ps) : Grows root s s' ps [] := by
  refine ⟨h.keeps hw, fun b => ?_, fun ht => ?_, h.pages⟩
  · rw [h.blocks, count_grown]
    rfl
  · rw [h.blocks]
    exact h.fresh.tidy ht

/-- a new block that holds no table -/
theorem Keeps.grows {root : Nat} {s s' : Heap} {b : Block} (h : Keeps root s s') (hb : s'.blocks = b :: s.blocks)
    (hfresh : Apart b.1 b.2 s.blocks) (ht : tableTree s'.mem 2 root = tableTree s.mem 2 root) :
    Grows root s s' [] [b] := by
  refine ⟨h, fun c => ?_, fun htidy => ?_, fun _ hp => .inl (ht ▸ hp)⟩
  · rw [hb, List.count_cons, List.count_singleton, Nat.add_comm, List.map_nil, List.count_nil, Nat.zero_add]
  · rw [hb]
    exact List.pairwise_cons.mpr ⟨hfresh, htidy⟩

/-- a block apart from the live ones does not meet the tables, up to the end of its last page -/
theorem Paged.disjoint_pages {root : Nat} {s : Heap} {p n : Nat} (hw : Paged s root) (hp : 4096 ∣ p)
    (ha : Apart p n s.blocks) :
    Disjoint (Mem.range p (4096 * pageCount n)) (area (tableTree s.mem 2 root)) := by
  rw [Set.disjoint_right]
  intro a ⟨q, hq, haq⟩ hap
  have hd : 4096 ∣ q := aligned_tableTree hw.wellFormed.aligned hq
  have hf := ha _ (hw.wellFormed.live q hq).2
  rw [Mem.mem_range] at haq hap
  simp only at hf
  unfold pageCount at hap
  omega

/-- a new block is safe up to the end of its last page -/
theorem safe_pages {A : PageAllocator} {root : Nat} {s s' : Heap} {p n : Nat} (hw : Paged s root)
    (h : A.next s.blocks n = some p) (hb : (p, n) ∈ s'.blocks)
    (ht : tableTree s'.mem 2 root = tableTree s.mem 2 root) :
    Safe s' root (Mem.range p (4096 * pageCount n)) := by
  refine ⟨shielded_pages hb (A.aligned _ _ _ h), ?_⟩
  rw [ht]
  exact hw.disjoint_pages (A.aligned _ _ _ h) (A.fresh _ _ _ h)

/-- translations do not change when the tables do not -/
theorem virtToPhys_congr {root : Nat} {s s' : Heap} (hw : Paged s root) (hw' : Paged s' root)
    (h : tableTree s'.mem 2 root = tableTree s.mem 2 root) (va : Word) :
    virtToPhys s'.mem root va = virtToPhys s.mem root va := by
  rw [virtToPhys_eq hw'.wellFormed.fits hw'.wellFormed.sound,
    virtToPhys_eq hw.wellFormed.fits hw.wellFormed.sound, h]

/-! ## tables whose mappings lead to safe memory -/

/-- every address mapped leads to memory that growing the tables and allocating leaves alone -/
def Backed (s : Heap) (root : Nat) : Prop := ∀ va a, MapsTo s.mem root va a → Safe s root {a}

theorem Paged.congr {s : Heap} {root : Nat} {m : Mem} (hw : Paged s root)
    (h : Set.EqOn m s.mem (area (tableTree s.mem 2 root))) : Paged ⟨m, s.blocks⟩ root := by
  refine ⟨hw.wellFormed.congr (fun _ => id) h, ?_⟩
  rw [tableTree_congr h]
  exact hw.deep

theorem Backed.congr {s : Heap} {root : Nat} {m : Mem} (hb : Backed s root) (hw : Paged s root)
    (h : Set.EqOn m s.mem (area (tableTree s.mem 2 root))) : Backed ⟨m, s.blocks⟩ root := by
  have ht := tableTree_congr h
  intro va a ⟨w, hv, hwa⟩
  rw [virtToPhys_congr hw (hw.congr h) ht] at hv
  have hsafe := hb va a ⟨w, hv, hwa⟩
  exact ⟨hsafe.shielded, by rw [ht]; exact hsafe.apart⟩

theorem backed_map_page {A : PageAllocator} {root : Nat} {bits : Word} (hbits : bits.toNat < 2^10)
    (hleaf : bits &&& 0xe#64 ≠ 0#64) {s : Heap} (vaddr : Word) {paddr : Word} (hw : Paged s root)
    (hb : Backed s root) (hp : paddr.toNat < 2^56)
    (hsafe : Safe s root (Mem.range (4096 * (paddr.toNat / 4096)) 4096))
    (hserve : Heap.Serves A [4096] 2 s.blocks) :
    ∃ s' ps, map A root vaddr paddr bits 0 s = some s' ∧ Extended A root s s' ps ∧ ps.length ≤ 2 ∧
      Backed s' root := by
  obtain ⟨s', ps, hm, hE, hl, hto, hout⟩ := map_page hbits hleaf vaddr hw hp hserve
  have hk := hE.keeps hw
  refine ⟨s', ps, hm, hE, hl, fun va a ⟨w, hv, hwa⟩ => ?_⟩
  by_cases hva : pageNo va = pageNo vaddr
  · obtain ⟨w', hv', hwa'⟩ := hto va hva
    obtain rfl : w = w' := Option.some.inj (Option.some.inj (hv.symm.trans hv'))
    refine (hk.safe _ hsafe).1.mono (Set.singleton_subset_iff.mpr ?_)
    rw [Mem.mem_range]
    omega
  · exact (hk.safe _ (hb va a ⟨w, (hout va hva).symm.trans hv, hwa⟩)).1

end Citron.Paging
