import Citron.Graphics.Sync
import Citron.Syscall.Files

/-!
# Drawing into a window

A process maps the frame of its window with `map_window`, stores words there and calls `sync_window`.  What it has at the
address of a pixel is then in the frame of the display.

* `mappedAt`          where the frame is for the process;
* `mapped_frame`      what it reaches there is the frame, whatever the memory holds but for the tables;
* `drawing_is_seen`   from the words of the process to the pixels of the display.
-/

namespace Citron.Syscall
open Paging Loader Graphics

/-- the address of the page that the process asks for -/
def mappedAt (vaddr : Word) : Word := vaddr &&& ~~~ Word.lowMask 12

/-- the word that the process loads -/
def loadWord (τ : Word → Option Nat) (va : Word) (m : Mem) : Option UInt32 :=
  (loadByte τ va m).bind fun b₀ => (loadByte τ (va + 1#64) m).bind fun b₁ => (loadByte τ (va + 2#64) m).bind fun b₂ =>
    (loadByte τ (va + 3#64) m).map fun b₃ =>
      UInt32.ofNat (b₀.toNat + 256 * (b₁.toNat + 256 * (b₂.toNat + 256 * b₃.toNat)))

/-- the words of a frame that starts at `buffer` -/
def frameWords (m : Mem) (buffer : Nat) (i : Nat) : UInt32 := UInt32.ofNat (m.readLE (buffer + 4 * i) 4)

/-! ## the frame, as the process sees it -/

theorem toNat_mappedAt (vaddr : Word) : (mappedAt vaddr).toNat % 4096 = 0 := by
  unfold mappedAt
  rw [Word.toNat_and_not_lowMask (by omega)]
  exact Nat.mul_mod_right _ _

theorem mapped_frame {A : PageAllocator} {c : Code} {s : System} (h : Walled c s) {pid : Nat} {P : Loader.Process}
    (hP : s.m.ptable[pid]? = some P) {σ : Type} {arena : Word → Option ArenaObject} {windowId vaddr : Word}
    {frame : WindowFrame} (hframe : arena windowId = some (.window frame))
    (hok : (SysAct.mapWindow pid arena windowId vaddr : SysAct σ).Proper A s) {m₁ : Manager}
    (hmap : mapWindow A pid arena windowId vaddr s.m = some m₁) {m : Mem}
    (hm : Set.EqOn m m₁.heap.mem (area (tableTree m₁.heap.mem 2 P.archProc.pageTable))) {j pa : Nat}
    (hj : j < frame.size.toNat)
    (hpa : sv39User m P.archProc.pageTable (mappedAt vaddr + BitVec.ofNat 64 j) = some pa) :
    pa = frame.buffer.toNat + j := by
  obtain ⟨ha, hok⟩ := hok P hP
  obtain ⟨hmem, hserve⟩ := hok frame hframe
  have hw := (h.booked.held pid P hP).paged ha
  obtain ⟨halign, hbound⟩ := h.frames _ hmem
  unfold mapWindow sysMapWindow at hmap
  rw [hP, Option.bind_some, hframe] at hmap
  obtain ⟨⟨ret, s'⟩, hcall, rfl⟩ := Option.map_eq_some_iff.mp hmap
  obtain ⟨s₂, hrange, he⟩ := Option.map_eq_some_iff.mp hcall
  cases he
  obtain ⟨s₃, ps, hpages, hE, -, hr⟩ := mapPages_leaf (show windowFlags &&& 0xe#64 ≠ 0#64 by decide)
    (pageCount frame.size.toNat) (mappedAt vaddr) frame.buffer hw
    (by unfold mappedAt; rw [pageNo_floor]; exact hserve)
  obtain rfl : s' = s₃ := by
    rw [mapRange_eq A _ _ halign hbound] at hrange
    exact Option.some.inj (hrange.symm.trans hpages)
  obtain ⟨va, hva⟩ : ∃ va, mappedAt vaddr + BitVec.ofNat 64 j = va := ⟨_, rfl⟩
  have hsmall : frame.size.toNat < 2^32 := by
    unfold WindowFrame.size
    rw [BitVec.toNat_setWidth]
    exact (Nat.mod_le _ _).trans_lt (frame.width * 4#32 * frame.height).isLt
  have hpage := toNat_mappedAt vaddr
  have hj64 : va.toNat = ((mappedAt vaddr).toNat + j) % 2^64 := by
    rw [← hva, BitVec.toNat_add, BitVec.toNat_ofNat, Nat.mod_eq_of_lt (show j < 2^64 by omega)]
  have hoffset : va.toNat % 4096 = j % 4096 := by omega
  -- the leaf of the page
  have hleaf := hr.inside va (j / 4096) (by unfold pageCount; omega) (by unfold pageCount; omega)
    (by unfold pageNo; omega)
  have hphys : (frame.buffer + BitVec.ofNat 64 (4096 * (j / 4096))).toNat = frame.buffer.toNat + 4096 * (j / 4096) := by
    rw [BitVec.toNat_add, BitVec.toNat_ofNat]
    omega
  have hvirt : virtToPhys m P.archProc.pageTable va = _ :=
    (virtToPhys_congr hE.paged (hE.paged.congr hm) (tableTree_congr hm) va).trans (virtToPhys_of_leaf hE.paged hleaf)
  rw [hva] at hpa
  obtain ⟨w, hw', rfl⟩ := virtToPhys_of_sv39User (hE.paged.congr hm) hpa
  obtain rfl := Option.some.inj (Option.some.inj (hw'.symm.trans hvirt))
  rw [phys_page (by rw [hphys]; omega) (by decide), hphys, hoffset]
  omega

/-- a word that the process loads from the frame is one of the frame's words -/
theorem loadWord_eq {τ : Word → Option Nat} {va : Word} {m : Mem} {buffer i : Nat} {c : UInt32}
    (hτ : ∀ k, k < 4 → ∀ pa, τ (va + BitVec.ofNat 64 k) = some pa → pa = buffer + 4 * i + k)
    (hc : loadWord τ va m = some c) : frameWords m buffer i = c := by
  have hbyte : ∀ k, k < 4 → ∀ b, loadByte τ (va + BitVec.ofNat 64 k) m = some b → m (buffer + 4 * i + k) = b := by
    intro k hk b hb
    obtain ⟨pa, hpa, rfl⟩ := Option.map_eq_some_iff.mp hb
    rw [hτ k hk pa hpa]
  obtain ⟨b₀, h₀, hc⟩ := Option.bind_eq_some_iff.mp hc
  obtain ⟨b₁, h₁, hc⟩ := Option.bind_eq_some_iff.mp hc
  obtain ⟨b₂, h₂, hc⟩ := Option.bind_eq_some_iff.mp hc
  obtain ⟨b₃, h₃, rfl⟩ := Option.map_eq_some_iff.mp hc
  have hfirst : m (buffer + 4 * i + 0) = b₀ := hbyte 0 (by decide) b₀ (by rw [BitVec.add_zero]; exact h₀)
  rw [← hfirst, ← hbyte 1 (by decide) b₁ h₁, ← hbyte 2 (by decide) b₂ h₂, ← hbyte 3 (by decide) b₃ h₃]
  rfl

/-- **Drawing is seen.** In every run of the kernel and every run of the mouse and the window manager: when a process has
mapped the frame of its window, and the window is shown, then after `sync_window` every word that the process has at the
address of a pixel is in the frame of the display, at the place of the pixel, unless a layer above shows there. -/
theorem drawing_is_seen {σ : Type} (A : PageAllocator) (D : Heap.Deallocator) (c : Code) (s₀ s : System) (h₀ : Booted c s₀)
    (as : List (SysAct σ)) (hok : Trace.Throughout (SysAct.step A D c) (SysAct.Proper A) as s₀)
    (hrun : Trace.run (SysAct.step A D c) as s₀ = some s) (pid : Nat) (P : Loader.Process)
    (hP : s.m.ptable[pid]? = some P) (arena : Word → Option ArenaObject) (windowId vaddr : Word) (frame : WindowFrame)
    (hframe : arena windowId = some (.window frame))
    (hproper : (SysAct.mapWindow pid arena windowId vaddr : SysAct σ).Proper A s) (m₁ : Manager)
    (hmap : mapWindow A pid arena windowId vaddr s.m = some m₁) (m : Mem)
    (hm : Set.EqOn m m₁.heap.mem (area (tableTree m₁.heap.mem 2 P.archProc.pageTable)))
    (art : Art) (display : VirtioGpu) (hw : display.width < 2^31) (hh : display.height < 2^31) (r₀ r : DragRun)
    (hinit : DragRun.init art display = some r₀) (actions : List DragAction)
    (hfits : ∀ a ∈ actions, a.Fits display.width display.height)
    (hdesk : Trace.run (DragRun.step art) actions r₀ = some r) (object : ObjectId) (id : LayerId) (window : Window)
    (l : Layer) (hobject : r.g.map object = some id) (hwindow : r.g.arena.map object = some (.window window))
    (hl : r.g.screen.lm.layers id = some l) (hshown : id ∈ r.g.layerStack)
    (hsize : frame.width.toNat = window.frame.width ∧ frame.height.toNat = window.frame.height) :
    ∃ g', r.g.updateWindowFrame object (frameWords m frame.buffer.toNat) = some g' ∧
      ∀ (x y : Nat) (q : Pixel display.width display.height) (pixel : UInt32), x < window.frame.width →
        y < window.frame.height → q.1.val = l.x + x → q.2.val = l.y + 30 + y →
        comp r.g.screen.lm.layers (above id r.g.layerStack) q = none →
        loadWord (sv39User m P.archProc.pageTable)
          (mappedAt vaddr + BitVec.ofNat 64 (4 * (y * window.frame.width + x))) m = some pixel →
        VirtioGpu.canvas.frame g'.screen.lm.painter q = VirtioGpu.canvas.encode pixel := by
  have hwalled : Walled c s := Trace.invariant (SysAct.Proper A) (Walled c)
    (fun _ _ _ hs hok hstep => hs.step hok hstep) as h₀.walled hok hrun
  obtain ⟨hpixels, g', hcall, hshow⟩ := sync_shows hw hh hinit hfits hdesk hobject hwindow hl hshown
    (frameWords m frame.buffer.toNat)
  refine ⟨g', hcall, fun x y q pixel hx hy hqx hqy habove hload => ?_⟩
  obtain ⟨i, hi⟩ : ∃ i, y * window.frame.width + x = i := ⟨_, rfl⟩
  have hlt : i < window.frame.width * window.frame.height := by
    rw [← hi]
    exact (rowMajor_eq hpixels hx hy).2
  have hbytes : frame.size.toNat = 4 * (window.frame.width * window.frame.height) := by
    unfold WindowFrame.size
    rw [BitVec.toNat_setWidth, BitVec.toNat_mul, BitVec.toNat_mul, hsize.1, hsize.2]
    have hmul : window.frame.width * 4 * window.frame.height = 4 * (window.frame.width * window.frame.height) := by ring
    rw [show (4#32).toNat = 4 from rfl, Nat.mod_mul_mod, hmul, Nat.mod_eq_of_lt (show _ < 2^32 by omega)]
    exact Nat.mod_eq_of_lt (by omega)
  rw [hshow x y q hx hy hqx hqy habove]
  rw [hi] at hload ⊢
  refine congrArg _ (loadWord_eq (fun k hk pa hpa => ?_) hload)
  rw [BitVec.add_assoc, ← BitVec.ofNat_add] at hpa
  have hplace := mapped_frame hwalled hP hframe hproper hmap hm (by omega) hpa
  omega

/-! ## one pixel -/

/-- a process, and the frame of a window of one pixel -/
def onePixel : List (SysAct Unit) := [.process (.createProcess true), .createFrame 1 1]

def pixelFrame : WindowFrame := ⟨0x80222000#64, 1, 1⟩

def pixelArena (id : Word) : Option ArenaObject := if id = 2 then some (.window pixelFrame) else none

/-- the kernel with the process and the frame, and after `map_window` -/
theorem onePixel_run : ∃ s P m₁, Trace.run (SysAct.step pages quiet sampleCode) onePixel bareSystem = some s ∧
    Trace.Throughout (SysAct.step pages quiet sampleCode) (SysAct.Proper pages) onePixel bareSystem ∧
    s.m.ptable[0]? = some P ∧ P.archProc.pageTable = 0x80216000 ∧
    (SysAct.mapWindow 0 pixelArena 2 0x10000#64 : SysAct Unit).Proper pages s ∧
    mapWindow pages 0 pixelArena 2 0x10000#64 s.m = some m₁ ∧
    (∀ p ∈ tablePages m₁.heap.mem 0x80216000, p ≠ 0x80222000 ∧ 4096 ∣ p) ∧
    (List.range 4).map (fun k => sv39User m₁.heap.mem 0x80216000 (0x10000#64 + BitVec.ofNat 64 k))
      = (List.range 4).map fun k => some (0x80222000 + k) := by
  have htop : (Trace.run (SysAct.step pages quiet sampleCode) (onePixel.take 1) bareSystem).map
      (fun s => Allocator.top s.m.heap.blocks) = some 0x80221000 := by
    decide +kernel
  have hview : (Trace.run (SysAct.step pages quiet sampleCode) onePixel bareSystem).map (fun s =>
      (Allocator.top s.m.heap.blocks, s.frames.map Prod.fst, s.frames.map Prod.snd,
        s.m.ptable.map fun P => (P.free, P.archProc.pageTable)))
      = some (0x80222004, [0x80222000], [4], [(false, 0x80216000)]) := by
    decide +kernel
  have hmapped : (Trace.run (SysAct.step pages quiet sampleCode) onePixel bareSystem).bind (fun s =>
      (mapWindow pages 0 pixelArena 2 0x10000#64 s.m).map fun m => (tablePages m.heap.mem 0x80216000,
        (List.range 4).map fun k => sv39User m.heap.mem 0x80216000 (0x10000#64 + BitVec.ofNat 64 k)))
      = some ([0x80225000, 0x80223000, 0x8021a000, 0x80218000, 0x80220000, 0x8021e000, 0x80216000],
        (List.range 4).map fun k => some (0x80222000 + k)) := by
    decide +kernel
  obtain ⟨t, hone, htop⟩ := Option.map_eq_some_iff.mp htop
  obtain ⟨s, hrun, hview⟩ := Option.map_eq_some_iff.mp hview
  rw [hrun, Option.bind_some] at hmapped
  obtain ⟨m₁, hmap, hmapped⟩ := Option.map_eq_some_iff.mp hmapped
  obtain ⟨htables, hbytes⟩ := Prod.mk.inj hmapped
  obtain ⟨htop₂, hview⟩ := Prod.mk.inj hview
  obtain ⟨hbuffer, hview⟩ := Prod.mk.inj hview
  obtain ⟨hsize, hptable⟩ := Prod.mk.inj hview
  obtain ⟨P, l, hs, hP, -⟩ := List.map_eq_cons_iff.mp hptable
  obtain ⟨hfree, hroot⟩ := Prod.mk.inj hP
  obtain ⟨b, l', hframes, hb, -⟩ := List.map_eq_cons_iff.mp hbuffer
  have h₀ : s.m.ptable[0]? = some P := by rw [hs]; rfl
  have hmem : (0x80222000, 4) ∈ s.frames := by
    rw [hframes] at hsize ⊢
    obtain ⟨hb', -⟩ := List.cons.inj hsize
    rw [← hb, ← hb']
    exact List.mem_cons_self
  refine ⟨s, P, m₁, hrun, ⟨serves_bare, fun t' ht' => ⟨?_, fun _ _ => trivial⟩⟩, h₀, hroot, fun Q hQ => ?_, hmap, ?_,
    hbytes⟩
  · obtain ⟨t'', ht'', he⟩ := Option.bind_eq_some_iff.mp hone
    cases he
    cases ht'.symm.trans ht''
    exact Heap.serves_bump (n := 4) (by decide) 1 (by rw [htop]; decide)
  · cases h₀.symm.trans hQ
    refine ⟨⟨hfree, by rw [hroot]; decide⟩, fun frame hframe => ?_⟩
    have hwindow : some (ArenaObject.window pixelFrame) = some (.window frame) := hframe
    obtain rfl := ArenaObject.window.inj (Option.some.inj hwindow)
    have hblock : (pixelFrame.buffer.toNat, pixelFrame.size.toNat) = (0x80222000, 4) := by decide
    have htwo : tables (pageNo 0x10000#64) (pageCount pixelFrame.size.toNat) = 2 := by decide
    rw [hblock, htwo]
    exact ⟨hmem, Heap.serves_bump (n := 4096) (by decide) 2 (by rw [htop₂]; decide)⟩
  · rw [htables]
    decide

/-- a display of one column -/
def column : VirtioGpu := ⟨fun _ => 0, 1, 31, by decide⟩

/-- a window of one pixel -/
def onePixelWindow : List DragAction := [.createWindow "" 0 0 1 1, .showWindow 2]

/-- the size of the frame of a window -/
def frameSize : Graphics.Object → Option (Nat × Nat)
  | .window w => some (w.frame.width, w.frame.height)
  | _ => none

/-- the pixel below the title bar -/
def belowBar : Pixel 1 31 := (0, 30)

theorem onePixelWindow_run : ∃ r₀ r window l, DragRun.init Globals.plain column = some r₀ ∧
    Trace.run (DragRun.step Globals.plain) onePixelWindow r₀ = some r ∧ r.g.map 2 = some 2 ∧
    r.g.arena.map 2 = some (.window window) ∧ r.g.screen.lm.layers 2 = some l ∧ 2 ∈ r.g.layerStack ∧
    window.frame.width = 1 ∧ window.frame.height = 1 ∧ l.x = 0 ∧ l.y = 0 ∧
    comp r.g.screen.lm.layers (above 2 r.g.layerStack) belowBar = none := by
  have hview : (DragRun.init Globals.plain column).bind (fun r₀ =>
      (Trace.run (DragRun.step Globals.plain) onePixelWindow r₀).map fun r => (r.g.map 2, (r.g.arena.map 2).bind frameSize,
        (r.g.screen.lm.layers 2).map (fun l => (l.x, l.y)),
        decide (2 ∈ r.g.layerStack) && (comp r.g.screen.lm.layers (above 2 r.g.layerStack) belowBar).isNone))
      = some (some 2, some (1, 1), some (0, 0), true) := by
    decide +kernel
  obtain ⟨r₀, hinit, hview⟩ := Option.bind_eq_some_iff.mp hview
  obtain ⟨r, hrun, hview⟩ := Option.map_eq_some_iff.mp hview
  obtain ⟨hmap, hview⟩ := Prod.mk.inj hview
  obtain ⟨hobj, hview⟩ := Prod.mk.inj hview
  obtain ⟨hl, hview⟩ := Prod.mk.inj hview
  obtain ⟨hstack, hcomp⟩ := Bool.and_eq_true_iff.mp hview
  obtain ⟨obj, hobj, hsize⟩ := Option.bind_eq_some_iff.mp hobj
  obtain ⟨l, hl, hplace⟩ := Option.map_eq_some_iff.mp hl
  obtain ⟨hx, hy⟩ := Prod.mk.inj hplace
  cases obj with
  | mouse transparent => cases hsize
  | desktop => cases hsize
  | window window =>
    obtain ⟨hw, hh⟩ := Prod.mk.inj (Option.some.inj hsize)
    exact ⟨r₀, r, window, l, hinit, hrun, hmap, hobj, hl, of_decide_eq_true hstack, hw, hh, hx, hy,
      Option.isNone_iff_eq_none.mp hcomp⟩

/-- four bytes, and the word of the display -/
theorem drawing_is_seen_pixel : ∃ s P m₁ r₀ r g',
    Trace.run (SysAct.step pages quiet sampleCode) onePixel bareSystem = some s ∧ s.m.ptable[0]? = some P ∧
    mapWindow pages 0 pixelArena 2 0x10000#64 s.m = some m₁ ∧ DragRun.init Globals.plain column = some r₀ ∧
    Trace.run (DragRun.step Globals.plain) onePixelWindow r₀ = some r ∧
    r.g.updateWindowFrame 2 (frameWords (m₁.heap.mem.blit 0x80222000 [0x11, 0x22, 0x33, 0x44]) 0x80222000) = some g' ∧
    VirtioGpu.canvas.frame g'.screen.lm.painter belowBar = VirtioGpu.canvas.encode 0x44332211 := by
  obtain ⟨s, P, m₁, hrun, hok, hP, hroot, hproper, hmap, htables, hbytes⟩ := onePixel_run
  obtain ⟨r₀, r, window, l, hinit, hdesk, hobject, hwindow, hl, hshown, hw, hh, hx, hy, hcomp⟩ := onePixelWindow_run
  obtain ⟨m, hm⟩ : ∃ m, m = m₁.heap.mem.blit 0x80222000 [0x11, 0x22, 0x33, 0x44] := ⟨_, rfl⟩
  have htree : Set.EqOn m m₁.heap.mem (area (tableTree m₁.heap.mem 2 P.archProc.pageTable)) := by
    rw [hm, hroot]
    refine Mem.blit_eqOn (Set.disjoint_left.mpr fun a ha ha' => ?_)
    obtain ⟨p, hp, hap⟩ := ha'
    obtain ⟨hne, hal⟩ := htables p (mem_tablePages.mpr hp)
    have hfour : [0x11, 0x22, 0x33, (0x44 : UInt8)].length = 4 := rfl
    rw [Mem.mem_range] at ha hap
    omega
  have hfits : ∀ a ∈ onePixelWindow, a.Fits column.width column.height := by
    intro a ha
    rcases List.mem_pair.mp ha with rfl | rfl
    · unfold DragAction.Fits
      decide
    · trivial
  obtain ⟨g', hcall, hshow⟩ := drawing_is_seen pages quiet sampleCode bareSystem s booted_bare onePixel hok hrun 0 P hP
    pixelArena 2 0x10000#64 pixelFrame rfl hproper m₁ hmap m htree Globals.plain column (by decide) (by decide) r₀ r hinit
    onePixelWindow hfits hdesk 2 2 window l hobject hwindow hl hshown ⟨hw.symm, hh.symm⟩
  have hload : loadWord (sv39User m P.archProc.pageTable)
      (mappedAt 0x10000#64 + BitVec.ofNat 64 (4 * (0 * window.frame.width + 0))) m = some 0x44332211 := by
    have hbyte : ∀ k, k < 4 → ∀ b, [0x11, 0x22, 0x33, (0x44 : UInt8)].getD k 0 = b →
        loadByte (sv39User m P.archProc.pageTable) (0x10000#64 + BitVec.ofNat 64 k) m = some b := by
      intro k hk b hb
      have hplace : sv39User m P.archProc.pageTable (0x10000#64 + BitVec.ofNat 64 k) = some (0x80222000 + k) := by
        rw [sv39User_congr htree, hroot]
        exact List.map_inj_left.mp hbytes k (List.mem_range.mpr hk)
      unfold loadByte
      rw [hplace, Option.map_some, hm, Mem.blit_add (show k < [0x11, 0x22, 0x33, (0x44 : UInt8)].length from hk), hb]
    rw [show mappedAt 0x10000#64 = 0x10000#64 from by decide, show 4 * (0 * window.frame.width + 0) = 0 from by omega,
      BitVec.add_zero]
    unfold loadWord
    rw [show loadByte _ 0x10000#64 m = some 0x11 from hbyte 0 (by decide) _ rfl,
      show loadByte _ (0x10000#64 + 1#64) m = some 0x22 from hbyte 1 (by decide) _ rfl,
      show loadByte _ (0x10000#64 + 2#64) m = some 0x33 from hbyte 2 (by decide) _ rfl,
      show loadByte _ (0x10000#64 + 3#64) m = some 0x44 from hbyte 3 (by decide) _ rfl]
    rfl
  rw [hm] at hcall
  exact ⟨s, P, m₁, r₀, r, g', hrun, hP, hmap, hinit, hdesk, hcall, hshow 0 0 belowBar 0x44332211 (by omega) (by omega)
    (by rw [hx]; rfl) (by rw [hy]; rfl) hcomp hload⟩

end Citron.Syscall
