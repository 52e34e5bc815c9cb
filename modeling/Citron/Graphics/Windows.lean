import Citron.Graphics.Screen
import Citron.Lib.Trace

/-!
# Windows

`src/graphics.rs`: the arena of the objects, the window manager and the events of the mouse, over the layers of
`Screen`.  The arena, the layer manager and the window manager are `static`s: they are one state here.  `none` is
a panic.  A stack of `2^31` layers is more than the heap holds, so that heights are the same as `usize` and as `i32`.

* `Object.drawTo`                                      what an object draws, by the drawing library or by itself;
* `createWindow`, `showWindow`, `updateWindowFrame`    the window manager;
* `Window.onEvent`, `onEvent`                          the mouse's button.
-/

namespace Citron.Graphics

abbrev ObjectId := Nat

/-! ## objects -/

structure Window where
  frame : FrameBuffer
  title : String
  titleBarHeight : Nat

namespace Window

def new (width height : Nat) : Window := ⟨.new width height, "", 30⟩

def setTitle (title : String) (window : Window) : Window := { window with title }

def updateFrame (window : Window) (buffer : FrameBuffer) : FrameBuffer :=
  (List.range window.frame.height).foldl (fun buffer y =>
    (List.range window.frame.width).foldl (fun buffer x =>
      buffer.drawAt x (u32 (y + window.titleBarHeight)) (window.frame.getPixel x y)) buffer) buffer

end Window

/-- the trait `Object` has three implementations; of the desktop nothing is read that it keeps -/
inductive Object
  | mouse (transparent : UInt32)
  | desktop
  | window (window : Window)

/-- what the drawing library puts into a buffer: a window with its title bar, and the wallpaper -/
structure Art where
  window : Window → FrameBuffer → Nat → UInt32
  desktop : FrameBuffer → Nat → UInt32

def Object.drawTo (art : Art) : Object → Drawing
  | .mouse transparent => Mouse.drawTo transparent
  | .desktop => fun _ _ buffer => art.desktop buffer
  | .window w => fun _ _ buffer => art.window w buffer

structure ObjectArena where
  map : ObjectId → Option Object
  currId : ObjectId

namespace ObjectArena

def new : ObjectArena := ⟨fun _ => none, 0⟩

def alloc (obj : Object) (arena : ObjectArena) : ObjectId × ObjectArena :=
  (arena.currId, ⟨Function.update arena.map arena.currId (some obj), arena.currId + 1⟩)

end ObjectArena

/-! ## the state -/

inductive ObjectEvent
  | mouseLeftPress (x y : Nat)
  | mouseLeftRelease (x y : Nat)

structure EventInfo where
  pressedId : LayerId
  pressedX : Nat
  pressedY : Nat

def EventInfo.new : EventInfo := ⟨0, 0, 0⟩

/-- the `static`s: `object` gives the object of a layer, `map` the layer of a window -/
structure Globals (π : Type) where
  arena : ObjectArena
  screen : Screen π
  object : LayerId → ObjectId
  eventInfo : EventInfo
  map : ObjectId → Option LayerId

namespace Globals
variable {π : Type}

def withScreen (g : Globals π) (screen : Screen π) : Globals π := { g with screen }

/-- the stack of the layers, bottom first -/
def layerStack (g : Globals π) : List LayerId := g.screen.lm.layerStack

def moveLayer (id : LayerId) (newHeight : Int) (g : Globals π) : Option (Globals π) :=
  (g.screen.moveLayer id newHeight).map g.withScreen

def moveAbs (id : LayerId) (x y : Int32) (g : Globals π) : Option (Globals π) :=
  (g.screen.moveAbs id x y).map g.withScreen

def updateBuffer (art : Art) (id : LayerId) (g : Globals π) : Option (Globals π) :=
  (g.arena.map (g.object id)).bind fun obj => (g.screen.updateBuffer id (obj.drawTo art)).map g.withScreen

def getLayerHeight (id : LayerId) (g : Globals π) : Nat := (LayerManager.position id g.layerStack).getD 0

variable [Painter π]

def update (id : LayerId) (g : Globals π) : Option (Globals π) := (g.screen.update id).map g.withScreen

def createLayer (object : ObjectId) (x y width height : Nat) (g : Globals π) : LayerId × Globals π :=
  (g.screen.currId, { g with
    screen := g.screen.createLayer x y width height
    object := Function.update g.object g.screen.currId object })

/-- `graphics::init` -/
def init (art : Art) (painter : π) : Option (Globals π) :=
  let mouse := ObjectArena.new.alloc (.mouse mouseTransparentColor)
  let desktop := mouse.2.alloc .desktop
  let object := fun id => if id = mouseLayerId then mouse.1 else desktop.1
  let obj := fun id => if id = mouseLayerId then Object.mouse mouseTransparentColor else .desktop
  (Screen.init painter fun id => (obj id).drawTo art).map fun screen =>
    ⟨desktop.2, screen, object, .new, fun _ => none⟩

/-! ## the window manager -/

def createWindow (title : String) (x y width height : Nat) (g : Globals π) : ObjectId × Globals π :=
  let window := (Window.new width height).setTitle title
  let (windowId, arena) := g.arena.alloc (.window window)
  let (layerId, g) := { g with arena }.createLayer windowId x y width (u32 (height + window.titleBarHeight))
  (windowId, { g with map := Function.update g.map windowId (some layerId) })

def showWindow (art : Art) (id : ObjectId) (g : Globals π) : Option (Globals π) :=
  (g.arena.map id).bind fun _ => (g.map id).bind fun layerId =>
    (g.moveLayer layerId 1).bind fun g => (g.updateBuffer art layerId).bind fun g => g.update layerId

/-- `words` is what the memory of the frame holds, where the owner of the window draws -/
def updateWindowFrame (id : ObjectId) (words : Nat → UInt32) (g : Globals π) : Option (Globals π) :=
  (g.arena.map id).bind fun obj => (g.map id).bind fun layerId =>
    match obj with
    | .window window =>
      let window := { window with frame := { window.frame with buffer := words } }
      (g.screen.change layerId fun layer => { layer with buffer := window.updateFrame layer.buffer }).bind fun screen =>
        (g.withScreen screen).update layerId
    | _ => none

end Globals

/-! ## events -/

def isOverlapping (x1 x2 x3 x4 : Nat) : Bool := decide (x1 < x4 ∧ x3 < x2)

/-- the point is inside the layer's rectangle -/
def Layer.under (x y : Nat) (layer : Layer) : Bool :=
  isOverlapping x x layer.x (u32 (layer.x + layer.width)) && isOverlapping y y layer.y (u32 (layer.y + layer.height))

namespace Globals
variable {π : Type}

/-- the loop over the stack, up to `event_from` -/
def affectLayer (layers : LayerId → Option Layer) (x y : Nat) (eventFrom : LayerId) :
    List LayerId → Option LayerId → Option (Option LayerId)
  | [], affect => some affect
  | layerId :: rest, affect =>
    (layers layerId).bind fun layer =>
      if layerId = eventFrom then some affect
      else affectLayer layers x y eventFrom rest (if layer.under x y then some layerId else affect)

variable [Painter π]

/-- `on_event` of a window: a press raises it to just below the mouse, a release moves it by its title bar -/
def windowOnEvent (window : Window) (layerId : LayerId) (g : Globals π) : ObjectEvent → Option (Globals π)
  | .mouseLeftPress _ _ =>
    -- as an `Int`: the difference of the two `usize`s wraps below zero, and no height is that large
    if (g.getLayerHeight layerId : Int) = g.getLayerHeight mouseLayerId - 1 then some g
    else (g.moveLayer layerId (g.getLayerHeight mouseLayerId - 1)).bind fun g => g.update layerId
  | .mouseLeftRelease x y =>
    (g.screen.lm.layers layerId).bind fun layer =>
      let nextX := Int32.ofNat x - (Int32.ofNat g.eventInfo.pressedX - Int32.ofNat layer.x)
      let nextY := Int32.ofNat y - (Int32.ofNat g.eventInfo.pressedY - Int32.ofNat layer.y)
      if u32 (layer.y + window.titleBarHeight) < g.eventInfo.pressedY then some g
      else (g.moveAbs layerId nextX nextY).bind fun g => g.update layerId

/-- the mouse and the desktop do nothing -/
def objectOnEvent (obj : Object) (event : ObjectEvent) (layerId : LayerId) (g : Globals π) : Option (Globals π) :=
  match obj with
  | .window window => g.windowOnEvent window layerId event
  | _ => some g

/-- the event goes to the object of a layer -/
def dispatch (event : ObjectEvent) (layerId : LayerId) (g : Globals π) : Option (Globals π) :=
  (g.screen.lm.layers layerId).bind fun _ =>
    (g.arena.map (g.object layerId)).bind fun obj => g.objectOnEvent obj event layerId

def onEvent (event : ObjectEvent) (eventFrom : LayerId) (g : Globals π) : Option (Globals π) :=
  match event with
  | .mouseLeftPress x y =>
    let g := { g with eventInfo := { g.eventInfo with pressedX := x, pressedY := y } }
    (affectLayer g.screen.lm.layers x y eventFrom g.layerStack none).bind fun
      | some layerId => dispatch event layerId { g with eventInfo := { g.eventInfo with pressedId := layerId } }
      | none => some g
  | .mouseLeftRelease _ _ => g.dispatch event g.eventInfo.pressedId

end Globals

/-! ## runs -/

/-- what the rest of the kernel asks for; the events come from the mouse's layer -/
inductive Request
  | createWindow (title : String) (x y width height : Nat)
  | showWindow (id : ObjectId)
  | updateWindowFrame (id : ObjectId) (words : Nat → UInt32)
  | event (event : ObjectEvent)

def Request.step {π : Type} [Painter π] (art : Art) : Request → Globals π → Option (Globals π)
  | .createWindow title x y width height, g => some (g.createWindow title x y width height).2
  | .showWindow id, g => g.showWindow art id
  | .updateWindowFrame id words, g => g.updateWindowFrame id words
  | .event e, g => g.onEvent e mouseLayerId

/-- only windows that `create_window` has returned are shown and updated -/
def Request.Known {π : Type} (g : Globals π) : Request → Prop
  | .showWindow id => (g.map id).isSome
  | .updateWindowFrame id _ => (g.map id).isSome
  | _ => True

instance {π : Type} (g : Globals π) : ∀ r : Request, Decidable (r.Known g)
  | .createWindow .. => isTrue trivial
  | .showWindow id => inferInstanceAs (Decidable ((g.map id).isSome = true))
  | .updateWindowFrame id _ => inferInstanceAs (Decidable ((g.map id).isSome = true))
  | .event _ => isTrue trivial

end Citron.Graphics
