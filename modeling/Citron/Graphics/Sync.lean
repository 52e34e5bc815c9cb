import Citron.Graphics.Drag
import Citron.Graphics.Stale

/-!
# What a window shows

`sync_window` copies the frame of a window into the buffer of its layer, below the title bar, and updates the layer.
Whatever the frame of the display has kept of before, at the place of the window it then shows the words of the frame of
the window, but for what is covered by the layers above.

* `updateFrame_getPixel`   the words of the frame, in the buffer of the layer;
* `SameSize`               what no call of the window manager and no event of the mouse changes in a layer;
* `Sound`                  every layer has its place, and every window its sizes;
* `sync_shows`             for every run.
-/

namespace Citron.Graphics
open Overlay Trace

/-! ## the buffer of the layer -/

section buffer
variable {width height : Nat} (hfits : width * height < 2^30)
include hfits

theorem drawAt_getPixel {fb : FrameBuffer} (hw : fb.width = width) {x y x' y' : Nat} (hx : x < width) (hy : y < height)
    (hx' : x' < width) (hy' : y' < height) (pixel : UInt32) :
    (fb.drawAt x y pixel).getPixel x' y' = if x' = x ∧ y' = y then pixel else fb.getPixel x' y' := by
  show Function.update fb.buffer (u32 (u32 (y * fb.width) + x)) pixel (u32 (u32 (y' * fb.width) + x'))
    = if x' = x ∧ y' = y then pixel else fb.buffer (u32 (u32 (y' * fb.width) + x'))
  rw [Function.update_apply, hw, (rowMajor_eq hfits hx hy).1, (rowMajor_eq hfits hx' hy').1]
  exact if_congr (rowMajor_inj hx hx') rfl rfl

/-- one row of words -/
theorem drawRow_getPixel {y : Nat} (hy : y < height) (pixel : Nat → UInt32) (xs : List Nat) : ∀ {fb : FrameBuffer},
    fb.width = width → (∀ x ∈ xs, x < width) →
    (xs.foldl (fun fb x => fb.drawAt x y (pixel x)) fb).width = width ∧
      ∀ x' y', x' < width → y' < height → (xs.foldl (fun fb x => fb.drawAt x y (pixel x)) fb).getPixel x' y'
        = if x' ∈ xs ∧ y' = y then pixel x' else fb.getPixel x' y' := by
  induction xs with
  | nil =>
    intro fb hw _
    exact ⟨hw, fun x' y' _ _ => (if_neg fun h => List.not_mem_nil h.1).symm⟩
  | cons x xs ih =>
    intro fb hw hxs
    obtain ⟨hx, hxs⟩ := List.forall_mem_cons.mp hxs
    obtain ⟨hwidth, hpixel⟩ := @ih (fb.drawAt x y (pixel x)) hw hxs
    refine ⟨hwidth, fun x' y' hx' hy' => (hpixel x' y' hx' hy').trans ?_⟩
    rw [drawAt_getPixel hfits hw hx hy hx' hy']
    by_cases hrow : y' = y
    · by_cases hfirst : x' = x
      · simp [hfirst, hrow]
      · simp [hfirst, hrow]
    · simp [hrow]

end buffer

section frame
variable {window : Window} {buffer : FrameBuffer} (hbar : window.titleBarHeight = 30)
  (hfits : window.frame.width * (window.frame.height + 30) < 2^30)
include hbar hfits

/-- the rows of the frame below the title bar -/
theorem drawRows_getPixel (ys : List Nat) : ∀ {fb : FrameBuffer}, fb.width = window.frame.width →
    (∀ y ∈ ys, y < window.frame.height) → ∀ x y, x < window.frame.width → y < window.frame.height →
    (ys.foldl (fun fb y => (List.range window.frame.width).foldl (fun fb x =>
      fb.drawAt x (u32 (y + window.titleBarHeight)) (window.frame.getPixel x y)) fb) fb).getPixel x (y + 30)
        = if y ∈ ys then window.frame.getPixel x y else fb.getPixel x (y + 30) := by
  induction ys with
  | nil => exact fun _ _ x y _ _ => (if_neg List.not_mem_nil).symm
  | cons y₀ ys ih =>
    intro fb hw hys x y hx hy
    obtain ⟨hy₀, hys⟩ := List.forall_mem_cons.mp hys
    -- with a pixel in a row the height is small
    have hle : window.frame.height + 30 ≤ window.frame.width * (window.frame.height + 30) :=
      Nat.le_mul_of_pos_left _ (by omega)
    have hu : u32 (y₀ + window.titleBarHeight) = y₀ + 30 := by
      rw [hbar]
      exact Nat.mod_eq_of_lt (by omega)
    obtain ⟨hwidth, hpixel⟩ := drawRow_getPixel hfits (y := u32 (y₀ + window.titleBarHeight)) (by omega)
      (fun x => window.frame.getPixel x y₀) (List.range window.frame.width) hw fun x hx => List.mem_range.mp hx
    refine (ih hwidth hys x y hx hy).trans ?_
    rw [hpixel x (y + 30) hx (by omega), hu]
    by_cases hsame : y = y₀
    · subst hsame
      simp [List.mem_range.mpr hx]
    · simp [hsame]

theorem updateFrame_getPixel (hw : buffer.width = window.frame.width) {x y : Nat} (hx : x < window.frame.width)
    (hy : y < window.frame.height) : (window.updateFrame buffer).getPixel x (y + 30) = window.frame.getPixel x y := by
  refine (drawRows_getPixel hbar hfits (List.range window.frame.height) hw (fun y hy => List.mem_range.mp hy) x y hx
    hy).trans ?_
  exact if_pos (List.mem_range.mpr hy)

end frame

/-- the copy leaves the size of the buffer -/
theorem updateFrame_width (window : Window) (buffer : FrameBuffer) :
    (window.updateFrame buffer).width = buffer.width := by
  have hrow : ∀ (y : Nat) (xs : List Nat) (fb : FrameBuffer), (xs.foldl (fun fb x =>
      fb.drawAt x (u32 (y + window.titleBarHeight)) (window.frame.getPixel x y)) fb).width = fb.width := by
    intro y xs
    induction xs with
    | nil => exact fun _ => rfl
    | cons x xs ih => exact fun fb => ih _
  have hrows : ∀ (ys : List Nat) (fb : FrameBuffer), (ys.foldl (fun fb y =>
      (List.range window.frame.width).foldl (fun fb x =>
        fb.drawAt x (u32 (y + window.titleBarHeight)) (window.frame.getPixel x y)) fb) fb).width = fb.width := by
    intro ys
    induction ys with
    | nil => exact fun _ => rfl
    | cons y ys ih => exact fun fb => (ih _).trans (hrow y _ fb)
  exact hrows _ buffer

/-! ## what does not change -/

/-- `l'` is `l`, drawn anew or at another place of the display -/
structure Layer.SameSize (w h : Nat) (l l' : Layer) : Prop where
  width : l'.width = l.width
  height : l'.height = l.height
  buffer : l'.buffer.width = l.buffer.width
  transparent : l'.transparent = l.transparent
  placed : l.Placed w h → l'.Placed w h

namespace Layer
variable {w h : Nat} {l l' l'' : Layer}

theorem SameSize.refl (l : Layer) : SameSize w h l l := ⟨rfl, rfl, rfl, rfl, id⟩

theorem SameSize.trans (hl : SameSize w h l l') (hl' : SameSize w h l' l'') : SameSize w h l l'' :=
  ⟨hl'.width.trans hl.width, hl'.height.trans hl.height, hl'.buffer.trans hl.buffer,
    hl'.transparent.trans hl.transparent, fun hp => hl'.placed (hl.placed hp)⟩

theorem sameSize_updatePrevInfo (l : Layer) : SameSize w h l l.updatePrevInfo :=
  ⟨rfl, rfl, rfl, rfl, fun hp => ⟨⟨hp.fits.x, hp.fits.y⟩, hp.fits.x, hp.fits.y, hp.width, hp.height⟩⟩

/-- what is drawn into the buffer does not matter -/
theorem sameSize_buffer (l : Layer) {buffer : FrameBuffer} (hb : buffer.width = l.buffer.width) :
    SameSize w h l { l with buffer } :=
  ⟨rfl, rfl, hb, rfl, fun hp => ⟨⟨hp.fits.x, hp.fits.y⟩, hp.prevX, hp.prevY, hp.width, hp.height⟩⟩

theorem sameSize_clamp (hw : w < 2^31) (hh : h < 2^31) (l : Layer) (x y : Int32) :
    SameSize w h l { l with
      x := (clamp x (Int32.ofNat w)).toUInt32.toNat
      y := (clamp y (Int32.ofNat h)).toUInt32.toNat } :=
  ⟨rfl, rfl, rfl, rfl, fun hp => hp.move (clamp_le x hw) (clamp_le y hh)⟩

end Layer

/-- every layer keeps its size -/
def LayerManager.SameSize (w h : Nat) (lm lm' : LayerManager VirtioGpu) : Prop :=
  ∀ a l', lm'.layers a = some l' → ∃ l, lm.layers a = some l ∧ l.SameSize w h l'

namespace LayerManager
variable {w h : Nat} {lm lm' lm'' : LayerManager VirtioGpu} {id : LayerId}

theorem SameSize.refl (lm : LayerManager VirtioGpu) : SameSize w h lm lm := fun _ l hl => ⟨l, hl, .refl l⟩

theorem SameSize.trans (hlm : SameSize w h lm lm') (hlm' : SameSize w h lm' lm'') : SameSize w h lm lm'' := by
  intro a l'' hl''
  obtain ⟨l', hl', hsize'⟩ := hlm' a l'' hl''
  obtain ⟨l, hl, hsize⟩ := hlm a l' hl'
  exact ⟨l, hl, hsize.trans hsize'⟩

theorem sameSize_setLayer {l l' : Layer} (hl : lm.layers id = some l) (hsize : l.SameSize w h l') :
    SameSize w h lm (lm.setLayer id l') := by
  intro a k hk
  change (if a = id then some l' else lm.layers a) = some k at hk
  split at hk
  · next ha =>
    cases hk
    exact ⟨l, ha ▸ hl, hsize⟩
  · exact ⟨k, hk, .refl k⟩

theorem drawUpTo_sameSize {prevX prevY prevWidth prevHeight x y width height : Nat} {stack : List LayerId} :
    ∀ {idx index : Nat} {lm : LayerManager VirtioGpu},
    drawUpTo id prevX prevY prevWidth prevHeight x y width height stack idx lm = some (index, lm') →
    SameSize w h lm lm' := by
  induction stack with
  | nil =>
    intro idx index lm hd
    cases hd
    exact .refl _
  | cons b stack ih =>
    intro idx index lm hd
    obtain ⟨l, hl, hd⟩ := Option.bind_eq_some_iff.mp hd
    dsimp only at hd
    split at hd
    · cases hd
      exact sameSize_setLayer hl l.sameSize_updatePrevInfo
    · have hrest := ih hd
      exact hrest

theorem drawFull_layers {stack : List LayerId} : ∀ {lm : LayerManager VirtioGpu},
    drawFull stack lm = some lm' → lm'.layers = lm.layers := by
  induction stack with
  | nil =>
    intro lm hd
    cases hd
    rfl
  | cons b stack ih =>
    intro lm hd
    obtain ⟨l, -, hd⟩ := Option.bind_eq_some_iff.mp hd
    have hrest := ih hd
    exact hrest

theorem update_sameSize (hu : lm.update id = some lm') : SameSize w h lm lm' := by
  obtain ⟨layer, -, hu⟩ := Option.bind_eq_some_iff.mp hu
  obtain ⟨⟨index, lm₁⟩, hd, hu⟩ := Option.bind_eq_some_iff.mp hu
  obtain ⟨lm₂, hfull, rfl⟩ := Option.map_eq_some_iff.mp hu
  intro a l hl
  refine drawUpTo_sameSize hd a l ?_
  rw [← drawFull_layers hfull]
  exact hl

end LayerManager

/-- nothing but the places and the contents of the layers, and their order, changes -/
structure Globals.SameSize (w h : Nat) (g g' : Globals VirtioGpu) : Prop where
  layers : LayerManager.SameSize w h g.screen.lm g'.screen.lm
  arena : g'.arena = g.arena
  map : g'.map = g.map

namespace Globals.SameSize
variable {w h : Nat} {g g' g'' : Globals VirtioGpu} {id : LayerId}

theorem refl (g : Globals VirtioGpu) : SameSize w h g g := ⟨.refl _, rfl, rfl⟩

theorem trans (hg : SameSize w h g g') (hg' : SameSize w h g' g'') : SameSize w h g g'' :=
  ⟨hg.layers.trans hg'.layers, hg'.arena.trans hg.arena, hg'.map.trans hg.map⟩

theorem update (hu : g.update id = some g') : SameSize w h g g' := by
  obtain ⟨screen, hs, rfl⟩ := Option.map_eq_some_iff.mp hu
  obtain ⟨lm, hlm, rfl⟩ := Option.map_eq_some_iff.mp hs
  exact ⟨LayerManager.update_sameSize hlm, rfl, rfl⟩

theorem moveLayer {newHeight : Int} (hm : g.moveLayer id newHeight = some g') : SameSize w h g g' := by
  obtain ⟨screen, hs, rfl⟩ := Option.map_eq_some_iff.mp hm
  obtain ⟨lm, hlm, rfl⟩ := Option.map_eq_some_iff.mp hs
  obtain ⟨-, hlayers, -⟩ := moveLayer_others hlm
  refine ⟨fun a l hl => ⟨l, ?_, .refl l⟩, rfl, rfl⟩
  rw [← hlayers]
  exact hl

theorem change {f : Layer → Layer} {screen : Screen VirtioGpu} (hc : g.screen.change id f = some screen)
    (hf : ∀ l, Layer.SameSize w h l (f l)) : SameSize w h g (g.withScreen screen) := by
  obtain ⟨l, hl, rfl⟩ := Option.map_eq_some_iff.mp hc
  exact ⟨LayerManager.sameSize_setLayer hl (hf l), rfl, rfl⟩

theorem showWindow {art : Art} {object : ObjectId} (hs : g.showWindow art object = some g') : SameSize w h g g' := by
  obtain ⟨obj, -, hs⟩ := Option.bind_eq_some_iff.mp hs
  obtain ⟨layerId, -, hs⟩ := Option.bind_eq_some_iff.mp hs
  obtain ⟨g₁, hmove, hs⟩ := Option.bind_eq_some_iff.mp hs
  obtain ⟨g₂, hbuffer, hs⟩ := Option.bind_eq_some_iff.mp hs
  obtain ⟨obj, -, hbuffer⟩ := Option.bind_eq_some_iff.mp hbuffer
  obtain ⟨screen, hscreen, rfl⟩ := Option.map_eq_some_iff.mp hbuffer
  exact ((moveLayer hmove).trans (change hscreen fun l => l.sameSize_buffer rfl)).trans (update hs)

theorem updateWindowFrame {object : ObjectId} {words : Nat → UInt32} (hu : g.updateWindowFrame object words = some g') :
    SameSize w h g g' := by
  obtain ⟨obj, -, hu⟩ := Option.bind_eq_some_iff.mp hu
  obtain ⟨layerId, -, hu⟩ := Option.bind_eq_some_iff.mp hu
  cases obj with
  | mouse transparent => cases hu
  | desktop => cases hu
  | window window =>
    obtain ⟨screen, hscreen, hu⟩ := Option.bind_eq_some_iff.mp hu
    exact (change hscreen fun l => l.sameSize_buffer (updateFrame_width _ _)).trans (update hu)

theorem dispatch_press {x y : Nat} (hd : g.dispatch (.mouseLeftPress x y) id = some g') : SameSize w h g g' := by
  obtain ⟨l, -, hd⟩ := Option.bind_eq_some_iff.mp hd
  obtain ⟨obj, -, hd⟩ := Option.bind_eq_some_iff.mp hd
  cases obj with
  | mouse transparent =>
    cases hd
    exact refl g
  | desktop =>
    cases hd
    exact refl g
  | window window =>
    change (if _ then some g else _) = some g' at hd
    split at hd
    · cases hd
      exact refl g
    · obtain ⟨g₁, hmove, hd⟩ := Option.bind_eq_some_iff.mp hd
      exact (moveLayer hmove).trans (update hd)

/-- what is recorded of an event does not matter -/
theorem info (g : Globals VirtioGpu) (eventInfo : EventInfo) : SameSize w h g { g with eventInfo } := ⟨.refl _, rfl, rfl⟩

theorem press {x y : Nat} (he : g.onEvent (.mouseLeftPress x y) mouseLayerId = some g') : SameSize w h g g' := by
  obtain ⟨affect, -, he⟩ := Option.bind_eq_some_iff.mp he
  cases affect with
  | none =>
    cases he
    exact info g _
  | some layerId => exact (info g _).trans (dispatch_press he)

section moves
variable (hw : w < 2^31) (hh : h < 2^31)
include hw hh

theorem moveMouse {dx dy : Int32} (hdisplay : g.screen.display mouseLayerId = (w, h))
    (hm : g.moveMouse dx dy = some g') : SameSize w h g g' := by
  obtain ⟨screen, hscreen, rfl⟩ := Option.map_eq_some_iff.mp hm
  refine change hscreen fun l => ?_
  rw [hdisplay]
  exact l.sameSize_clamp hw hh _ _

theorem release {x y : Nat} (hdisplay : g.screen.display g.eventInfo.pressedId = (w, h))
    (he : g.onEvent (.mouseLeftRelease x y) mouseLayerId = some g') : SameSize w h g g' := by
  obtain ⟨l, -, he⟩ := Option.bind_eq_some_iff.mp he
  obtain ⟨obj, -, he⟩ := Option.bind_eq_some_iff.mp he
  cases obj with
  | mouse transparent =>
    cases he
    exact refl g
  | desktop =>
    cases he
    exact refl g
  | window window =>
    obtain ⟨layer, -, he⟩ := Option.bind_eq_some_iff.mp he
    dsimp only at he
    split at he
    · cases he
      exact refl g
    · obtain ⟨g₁, hmove, he⟩ := Option.bind_eq_some_iff.mp he
      obtain ⟨screen, hscreen, rfl⟩ := Option.map_eq_some_iff.mp hmove
      refine (change hscreen fun l => ?_).trans (update he)
      rw [hdisplay]
      exact l.sameSize_clamp hw hh _ _

end moves

end Globals.SameSize

/-! ## runs -/

/-- The layers are on the display; but for the mouse they have no transparent colour; and a window has the sizes that it
was created with. -/
structure Sound (w h : Nat) (g : Globals VirtioGpu) : Prop where
  placed : ∀ id l, g.screen.lm.layers id = some l → l.Placed w h
  solid : ∀ id l, id ≠ mouseLayerId → g.screen.lm.layers id = some l → l.transparent = none
  window : ∀ object id window l, g.map object = some id → g.arena.map object = some (.window window) →
    g.screen.lm.layers id = some l → l.width = window.frame.width ∧ l.buffer.width = window.frame.width ∧
      l.height = window.frame.height + 30 ∧ window.frame.width * (window.frame.height + 30) < 2^30

/-- a window of which the sums of the coordinates are `u32`, and the sizes in bytes of the buffers -/
def DragAction.Fits (w h : Nat) : DragAction → Prop
  | .createWindow _ x y width height => x + width < 2^32 ∧ y + (height + 30) < 2^32 ∧ w + width < 2^32 ∧
    h + (height + 30) < 2^32 ∧ width * (height + 30) < 2^30
  | _ => True

section sound
variable {w h : Nat} {g g' : Globals VirtioGpu}

theorem Sound.sameSize (hs : Sound w h g) (hg : g.SameSize w h g') : Sound w h g' := by
  refine ⟨fun id l' hl' => ?_, fun id l' hid hl' => ?_, fun object id window l' hmap hobj hl' => ?_⟩
  · obtain ⟨l, hl, hsize⟩ := hg.layers id l' hl'
    exact hsize.placed (hs.placed id l hl)
  · obtain ⟨l, hl, hsize⟩ := hg.layers id l' hl'
    exact hsize.transparent.trans (hs.solid id l hid hl)
  · obtain ⟨l, hl, hsize⟩ := hg.layers id l' hl'
    rw [hg.map] at hmap
    rw [hg.arena] at hobj
    rw [hsize.width, hsize.buffer, hsize.height]
    exact hs.window object id window l hmap hobj hl

theorem Sound.createWindow (hs : Sound w h g) {d : Desk} (hshape : g.Shape d) (title : String) {x y width height : Nat}
    (hfits : (DragAction.createWindow title x y width height).Fits w h) :
    Sound w h (g.createWindow title x y width height).2 := by
  obtain ⟨hx, hy, hw, hh, hsize⟩ := hfits
  have hu : u32 (height + 30) = height + 30 := Nat.mod_eq_of_lt (by omega)
  have hself : (g.createWindow title x y width height).2.screen.lm.layers g.screen.currId
      = some (.new x y width (u32 (height + 30))) := if_pos rfl
  have hother : ∀ a, a ≠ g.screen.currId →
      (g.createWindow title x y width height).2.screen.lm.layers a = g.screen.lm.layers a := fun a ha => if_neg ha
  rw [hu] at hself
  refine ⟨fun id l hl => ?_, fun id l hid hl => ?_, fun object id window l hmap hobj hl => ?_⟩
  · by_cases he : id = g.screen.currId
    · subst he
      cases hself.symm.trans hl
      exact new_placed hx hy hw hh
    · exact hs.placed id l ((hother id he).symm.trans hl)
  · by_cases he : id = g.screen.currId
    · subst he
      cases hself.symm.trans hl
      rfl
    · exact hs.solid id l hid ((hother id he).symm.trans hl)
  · change Function.update g.map g.arena.currId (some g.screen.currId) object = some id at hmap
    change Function.update g.arena.map g.arena.currId _ object = _ at hobj
    by_cases he : object = g.arena.currId
    · rw [he, Function.update_self] at hmap hobj
      cases hmap
      cases hobj
      cases hself.symm.trans hl
      exact ⟨rfl, rfl, rfl, hsize⟩
    · rw [Function.update_of_ne he] at hmap hobj
      have hid : id ≠ g.screen.currId := Nat.ne_of_lt (hshape.known object id hmap).1
      exact hs.window object id window l hmap hobj ((hother id hid).symm.trans hl)

end sound

namespace LayerManager

theorem drawAllLoop_sameSize {w h : Nat} {draw : LayerId → Drawing} {lm' : LayerManager VirtioGpu} {stack : List LayerId} :
    ∀ {lm : LayerManager VirtioGpu}, drawAllLoop draw stack lm = some lm' → SameSize w h lm lm' := by
  induction stack with
  | nil =>
    intro lm hd
    cases hd
    exact .refl _
  | cons b stack ih =>
    intro lm hd
    obtain ⟨l, hl, hd⟩ := Option.bind_eq_some_iff.mp hd
    have hrest := ih hd
    have hset : SameSize w h lm (lm.setLayer b (l.drawToBuffer (draw b))) :=
      sameSize_setLayer hl (l.sameSize_buffer rfl)
    exact hset.trans hrest

end LayerManager

namespace DragRun
variable {w h : Nat} {art : Art} {s s' : DragRun}

theorem init_sound {display : VirtioGpu} (hw : display.width < 2^31) (hh : display.height < 2^31)
    (hinit : init art display = some s) : Sound display.width display.height s.g := by
  obtain ⟨g, hg, rfl⟩ := Option.map_eq_some_iff.mp hinit
  unfold Globals.init at hg
  obtain ⟨screen, hscreen, rfl⟩ := Option.map_eq_some_iff.mp hg
  rw [init_eq] at hscreen
  obtain ⟨lm, hlm, rfl⟩ := Option.map_eq_some_iff.mp hscreen
  obtain ⟨lm₁, hloop, rfl⟩ := Option.map_eq_some_iff.mp hlm
  have hsize := LayerManager.drawAllLoop_sameSize (w := display.width) (h := display.height) hloop
  refine ⟨fun id l' hl' => ?_, fun id l' hid hl' => ?_, fun object id window l' hmap _ _ => nomatch hmap⟩
  · obtain ⟨l, hl, hsame⟩ := hsize id l' hl'
    exact hsame.placed (beforeDraw_layer hw hh hl).1
  · obtain ⟨l, hl, hsame⟩ := hsize id l' hl'
    refine hsame.transparent.trans ?_
    rcases Nat.le_one_iff_eq_zero_or_eq_one.mp (Nat.le_of_lt_succ (beforeDraw_layer hw hh hl).2.2) with rfl | rfl
    · exact absurd rfl hid
    · have hdesktop : some (Layer.new 0 0 display.width display.height) = some l := hl
      cases hdesktop
      rfl

theorem step_sound {a : DragAction} (hw : w < 2^31) (hh : h < 2^31) (hs : (∃ d, s.g.Shape d) ∧ Held w h s)
    (hsound : Sound w h s.g) (hfits : a.Fits w h) (hstep : step art a s = some s') : Sound w h s'.g := by
  obtain ⟨⟨d, hshape⟩, hheld⟩ := hs
  cases a with
  | createWindow title x y width height =>
    cases hstep
    exact hsound.createWindow hshape title hfits
  | showWindow id =>
    obtain ⟨g', hg, rfl⟩ := Option.map_eq_some_iff.mp hstep
    exact hsound.sameSize (.showWindow hg)
  | updateWindowFrame id words =>
    obtain ⟨g', hg, rfl⟩ := Option.map_eq_some_iff.mp hstep
    exact hsound.sameSize (.updateWindowFrame hg)
  | relX value =>
    obtain ⟨g', hg, rfl⟩ := Option.map_eq_some_iff.mp hstep
    exact hsound.sameSize (.moveMouse hw hh (hheld.display _ (Nat.lt_of_succ_lt hshape.low)) hg)
  | relY value =>
    obtain ⟨g', hg, rfl⟩ := Option.map_eq_some_iff.mp hstep
    exact hsound.sameSize (.moveMouse hw hh (hheld.display _ (Nat.lt_of_succ_lt hshape.low)) hg)
  | syn =>
    obtain ⟨g', hg, rfl⟩ := Option.map_eq_some_iff.mp hstep
    exact hsound.sameSize (.update hg)
  | press =>
    obtain ⟨⟨x, y⟩, -, hstep⟩ := Option.bind_eq_some_iff.mp hstep
    obtain ⟨g', hevent, rfl⟩ := Option.map_eq_some_iff.mp hstep
    exact hsound.sameSize (.press hevent)
  | release =>
    obtain ⟨⟨x, y⟩, -, hstep⟩ := Option.bind_eq_some_iff.mp hstep
    obtain ⟨g', hevent, rfl⟩ := Option.map_eq_some_iff.mp hstep
    exact hsound.sameSize (.release hw hh (hheld.display _ hshape.pressed) hevent)

end DragRun

/-! ## `sync_window` -/

/-- the layers above `id`, bottom first -/
def above (id : LayerId) (stack : List LayerId) : List LayerId := (stack.dropWhile (· ≠ id)).tail

theorem Desk.stack_nodup (d : Desk) : d.stack.Nodup := by
  have hall : (desktopLayerId :: d.windows).Nodup := List.nodup_cons.mpr ⟨fun hm => (d.other _ hm).2 rfl, d.nodup⟩
  refine List.nodup_append.mpr ⟨hall, List.nodup_singleton mouseLayerId, fun a ha b hb => ?_⟩
  rw [List.mem_singleton.mp hb]
  exact ne_of_mem_of_not_mem ha d.mouse_notMem

theorem above_append {id : LayerId} {lo hi : List LayerId} (hlo : id ∉ lo) : above id (lo ++ id :: hi) = hi := by
  unfold above
  rw [List.dropWhile_append_of_pos fun a ha => decide_eq_true (ne_of_mem_of_not_mem ha hlo),
    List.dropWhile_cons_of_neg (by simp)]
  rfl

/-- the layer of a window, with the frame in its buffer -/
def Layer.withFrame (window : Window) (l : Layer) : Layer := { l with buffer := window.updateFrame l.buffer }

/-- the words of the frame, where the layer is -/
theorem image_withFrame {window : Window} {l : Layer} (hbar : window.titleBarHeight = 30)
    (hsize : window.frame.width * (window.frame.height + 30) < 2^30) (hwidth : l.width = window.frame.width)
    (hbuffer : l.buffer.width = window.frame.width) (hheight : l.height = window.frame.height + 30)
    (hsolid : l.transparent = none) {x y w h : Nat} (hx : x < window.frame.width) (hy : y < window.frame.height)
    {q : Pixel w h} (hqx : q.1.val = l.x + x) (hqy : q.2.val = l.y + 30 + y) :
    (l.withFrame window).image q = some (window.frame.buffer (y * window.frame.width + x)) := by
  have hin : inRect l.x l.y l.width l.height q = true := decide_eq_true (by omega)
  have hpixel : (l.withFrame window).buffer.getPixel x (y + 30) = window.frame.buffer (y * window.frame.width + x) := by
    refine (updateFrame_getPixel hbar hsize hbuffer hx hy).trans ?_
    unfold FrameBuffer.getPixel
    rw [(rowMajor_eq hsize hx (by omega)).1]
  have hx' : q.1.val - l.x = x := by omega
  have hy' : q.2.val - l.y = y + 30 := by omega
  unfold Layer.image within
  refine (if_pos hin).trans ?_
  have hcolour := colour_of_transparent_none (l := l.withFrame window) hsolid q.1.val q.2.val
  refine hcolour.trans ?_
  show some ((l.withFrame window).buffer.getPixel (q.1.val - l.x) (q.2.val - l.y)) = _
  rw [hx', hy', hpixel]

/-- one `sync_window` -/
theorem Sound.sync {w h : Nat} {s : DragRun} {d : Desk} (hshape : s.g.Shape d) (hheld : Held w h s) (hs : Sound w h s.g)
    {object : ObjectId} {id : LayerId} {window : Window} {l : Layer} (hmap : s.g.map object = some id)
    (hobj : s.g.arena.map object = some (.window window)) (hl : s.g.screen.lm.layers id = some l)
    (hshown : id ∈ s.g.layerStack) (words : Nat → UInt32) :
    ∃ g', s.g.updateWindowFrame object words = some g' ∧
      ∀ q : Pixel w h, comp s.g.screen.lm.layers (above id s.g.layerStack) q = none → ∀ c,
        (l.withFrame { window with frame := { window.frame with buffer := words } }).image q = some c →
        VirtioGpu.canvas.frame g'.screen.lm.painter q = VirtioGpu.canvas.encode c := by
  obtain ⟨lo, hi, hstack⟩ := List.append_of_mem hshown
  have hnodup : (lo ++ id :: hi).Nodup := by
    rw [← hstack, hshape.stack]
    exact d.stack_nodup
  obtain ⟨hlo, hhi⟩ : id ∉ lo ∧ id ∉ hi := by
    rw [List.nodup_append'] at hnodup
    exact ⟨fun hm => hnodup.2.2 hm List.mem_cons_self, (List.nodup_cons.mp hnodup.2.1).1⟩
  obtain ⟨l', hl'⟩ : ∃ l', l' = l.withFrame { window with frame := { window.frame with buffer := words } } := ⟨_, rfl⟩
  obtain ⟨lm, hlm⟩ : ∃ lm, lm = s.g.screen.lm.setLayer id l' := ⟨_, rfl⟩
  have hself : lm.layers id = some l' := by
    rw [hlm]
    exact if_pos rfl
  have hother : ∀ a, a ≠ id → lm.layers a = s.g.screen.lm.layers a := by
    rw [hlm]
    exact fun a ha => if_neg ha
  have hchange : s.g.screen.change id (Layer.withFrame { window with frame := { window.frame with buffer := words } })
      = some (s.g.screen.withLm lm) := by
    unfold Screen.change
    rw [hl, hlm, hl']
    rfl
  have hplaced : ∀ a k, lm.layers a = some k → k.Placed w h :=
    (hs.sameSize (.change hchange fun layer => layer.sameSize_buffer (updateFrame_width _ _))).placed
  have hfit : StackFits lm.layers lm.layerStack := by
    intro a ha
    have hexist : (lm.layers a).isSome := by
      by_cases he : a = id
      · rw [he, hself]
        rfl
      · rw [hother a he]
        exact hshape.present a (by rw [hlm] at ha; exact ha)
    obtain ⟨k, hk⟩ := Option.isSome_iff_exists.mp hexist
    exact ⟨k, hk, (hplaced a k hk).fits⟩
  have hsized : Sized lm.painter w h := by
    rw [hlm]
    exact ⟨hheld.width, hheld.height⟩
  obtain ⟨p, hupdate, -, hframe⟩ := update_paints VirtioGpu.canvas hsized hself (by rw [hlm]; exact hstack) hlo hhi hfit
    (hplaced id l' hself).prevX (hplaced id l' hself).prevY
  have hcall : s.g.updateWindowFrame object words
      = some (s.g.withLm ((lm.setLayer id l'.updatePrevInfo).setPainter (Painter.flush p))) := by
    unfold Globals.updateWindowFrame
    rw [hobj, Option.bind_some, hmap, Option.bind_some]
    show (s.g.screen.change id (Layer.withFrame _)).bind _ = _
    rw [hchange, Option.bind_some]
    show ((lm.update id).map _).map _ = _
    rw [hupdate]
    rfl
  refine ⟨_, hcall, fun q habove c hc => ?_⟩
  -- the layer is drawn last at the pixel
  have hcover : comp lm.layers hi q = none := by
    rw [hstack, above_append hlo] at habove
    rw [← habove]
    exact congrFun (comp_congr fun a ha => hother a (ne_of_mem_of_not_mem ha hhi)) q
  rw [← hl'] at hc
  have hat := congrFun hframe q
  rw [flat_shownStack VirtioGpu.canvas lm.layers hi] at hat
  refine hat.trans ?_
  show ((comp lm.layers hi q).map VirtioGpu.canvas.encode).getD (((l'.image q).map VirtioGpu.canvas.encode).getD _) = _
  rw [hcover, hc]
  rfl

theorem DragRun.run_sound {art : Art} {display : VirtioGpu} (hw : display.width < 2^31) (hh : display.height < 2^31)
    {s₀ s : DragRun} (hinit : DragRun.init art display = some s₀) {actions : List DragAction}
    (hfits : ∀ a ∈ actions, a.Fits display.width display.height) (hrun : run (DragRun.step art) actions s₀ = some s) :
    ((∃ d, s.g.Shape d) ∧ Held display.width display.height s) ∧ Sound display.width display.height s.g := by
  obtain ⟨g₀, d₀, hinit₀, hshape₀, -⟩ := Globals.init_shape art display
  have hshape : s₀.g.Shape d₀ := by
    obtain ⟨g, hg, rfl⟩ := Option.map_eq_some_iff.mp hinit
    cases hg.symm.trans hinit₀
    exact hshape₀
  exact invariant (fun _ a => a.Fits display.width display.height)
    (fun s => ((∃ d, s.g.Shape d) ∧ Held display.width display.height s) ∧ Sound display.width display.height s.g)
    (fun _ _ _ hs hok hstep => ⟨DragRun.step_held hs.1 hstep, DragRun.step_sound hw hh hs.1 hs.2 hok hstep⟩) actions
    ⟨⟨⟨d₀, hshape⟩, DragRun.init_held hinit⟩, DragRun.init_sound hw hh hinit⟩
    (throughout_of_forall actions (fun a ha _ => hfits a ha) s₀) hrun

/-- **A window shows its frame.** In every run of the mouse and the window manager from `graphics::init` on, in which the
windows that are created have sizes and places that fit, after `sync_window` of a window that is shown every word of its
frame is in the frame of the display, at its place, unless a layer above shows there. -/
theorem sync_shows {art : Art} {display : VirtioGpu} (hw : display.width < 2^31) (hh : display.height < 2^31)
    {s₀ s : DragRun} (hinit : DragRun.init art display = some s₀) {actions : List DragAction}
    (hfits : ∀ a ∈ actions, a.Fits display.width display.height) (hrun : run (DragRun.step art) actions s₀ = some s)
    {object : ObjectId} {id : LayerId} {window : Window} {l : Layer} (hmap : s.g.map object = some id)
    (hobj : s.g.arena.map object = some (.window window)) (hl : s.g.screen.lm.layers id = some l)
    (hshown : id ∈ s.g.layerStack) (words : Nat → UInt32) :
    window.frame.width * window.frame.height < 2^30 ∧ ∃ g', s.g.updateWindowFrame object words = some g' ∧
      ∀ (x y : Nat) (q : Pixel display.width display.height), x < window.frame.width → y < window.frame.height →
        q.1.val = l.x + x → q.2.val = l.y + 30 + y → comp s.g.screen.lm.layers (above id s.g.layerStack) q = none →
        VirtioGpu.canvas.frame g'.screen.lm.painter q
          = VirtioGpu.canvas.encode (words (y * window.frame.width + x)) := by
  obtain ⟨⟨⟨d, hshape⟩, hheld⟩, hsound⟩ := DragRun.run_sound hw hh hinit hfits hrun
  have hbar := hheld.bar object window hobj
  obtain ⟨hwidth, hbuffer, hheight, hsize⟩ := hsound.window object id window l hmap hobj hl
  have hsolid : l.transparent = none := hsound.solid id l (hshape.known object id hmap).2.1.1 hl
  obtain ⟨g', hcall, hpixel⟩ := hsound.sync hshape hheld hmap hobj hl hshown words
  refine ⟨?_, g', hcall, fun x y q hx hy hqx hqy habove => hpixel q habove _ ?_⟩
  · exact Nat.lt_of_le_of_lt (Nat.mul_le_mul_left _ (Nat.le_add_right _ 30)) hsize
  · have hbar' : ({ window with frame := { window.frame with buffer := words } } : Window).titleBarHeight = 30 := hbar
    exact image_withFrame hbar' hsize hwidth hbuffer hheight hsolid hx hy hqx hqy

end Citron.Graphics
