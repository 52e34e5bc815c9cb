import Mathlib.Data.Set.Basic
import Mathlib.Data.Option.Basic

/-!
# Images over a frame

An image gives a colour at some of the points.  Painting it over a frame changes the frame there.

* `flat`     a pile of images as one image, the later ones on top;
* `paint`    an image over a frame;
* `within`   the part of an image in a region;
* `redraw`   after one image of a pile has changed, painting the images below it in a region, then the
             image, then those above gives the new pile, when the frame outside the region is right for
             the pile without that image.
-/

namespace Overlay
variable {P C : Type}

abbrev Image (P C : Type) := P → Option C

def flat : List (Image P C) → Image P C
  | [] => fun _ => none
  | a :: l => fun p => (flat l p).or (a p)

def paint (f : P → C) (a : Image P C) : P → C := fun p => (a p).getD (f p)

def within (R : P → Bool) (a : Image P C) : Image P C := fun p => if R p then a p else none

theorem flat_append (l l' : List (Image P C)) (p : P) :
    flat (l ++ l') p = (flat l' p).or (flat l p) := by
  induction l with
  | nil => exact (Option.or_none).symm
  | cons a l ih =>
    show (flat (l ++ l') p).or (a p) = (flat l' p).or ((flat l p).or (a p))
    rw [ih, Option.or_assoc]

theorem getD_or (a b : Option C) (c : C) : (a.or b).getD c = a.getD (b.getD c) := by
  cases a <;> rfl

theorem paint_none (f : P → C) : paint f (fun _ => none) = f := rfl

/-- painting an image and then a pile over it -/
theorem paint_cons (f : P → C) (a : Image P C) (l : List (Image P C)) :
    paint (paint f a) (flat l) = paint f (flat (a :: l)) := by
  funext p
  exact (getD_or (flat l p) (a p) (f p)).symm

theorem within_none (R : P → Bool) : within R (fun _ => none : Image P C) = fun _ => none := by
  funext p
  exact ite_self none

theorem paint_within_cons (R : P → Bool) (f : P → C) (a : Image P C) (l : List (Image P C)) :
    paint (paint f (within R a)) (within R (flat l)) = paint f (within R (flat (a :: l))) := by
  funext p
  show (if R p then flat l p else none).getD ((if R p then a p else none).getD (f p))
    = (if R p then (flat l p).or (a p) else none).getD (f p)
  cases R p with
  | true => exact (getD_or (flat l p) (a p) (f p)).symm
  | false => rfl

/-- recolouring goes through piles and regions -/
theorem flat_recolour {D : Type} (g : C → D) (l : List (Image P C)) :
    flat (l.map fun a p => (a p).map g) = fun p => (flat l p).map g := by
  induction l with
  | nil => rfl
  | cons a l ih =>
    funext p
    show (flat (l.map fun a p => (a p).map g) p).or ((a p).map g) = ((flat l p).or (a p)).map g
    rw [ih]
    show ((flat l p).map g).or ((a p).map g) = _
    cases flat l p <;> rfl

theorem redraw (R : P → Bool) {lo hi : List (Image P C)} {d : Image P C} {f : P → C} {p : P} {c : C}
    (hf : R p = false → d p = none → flat (lo ++ hi) p = some c → f p = c)
    (hc : flat (lo ++ d :: hi) p = some c) :
    paint (paint (paint f (within R (flat lo))) d) (flat hi) p = c := by
  rw [flat_append] at hc
  change ((flat hi p).or (d p)).or (flat lo p) = some c at hc
  show (flat hi p).getD ((d p).getD ((within R (flat lo) p).getD (f p))) = c
  cases hhi : flat hi p with
  | some a =>
    rw [hhi] at hc
    exact Option.some.inj hc
  | none =>
    rw [hhi] at hc
    cases hd : d p with
    | some a =>
      rw [hd] at hc
      exact Option.some.inj hc
    | none =>
      rw [hd] at hc
      have hlo : flat lo p = some c := hc
      show (if R p then flat lo p else none).getD (f p) = c
      cases hR : R p with
      | true => rw [if_pos rfl, hlo]; rfl
      | false =>
        -- untouched: neither the image nor those above show here
        refine hf hR hd ?_
        rw [flat_append, hhi, hlo]
        rfl

/-- painting a whole pile in a region, and all but its lowest image once more -/
theorem redraw_all (R : P → Bool) {l : List (Image P C)} {f : P → C} {p : P} {c : C}
    (hf : R p = false → f p = c) (hc : flat l p = some c) :
    paint (paint f (within R (flat l))) (flat (l.drop 1)) p = c := by
  cases l with
  | nil => cases hc
  | cons a l =>
    show (flat l p).getD ((if R p then flat (a :: l) p else none).getD (f p)) = c
    cases hl : flat l p with
    | some v =>
      change (flat l p).or (a p) = some c at hc
      rw [hl] at hc
      exact Option.some.inj hc
    | none =>
      cases hR : R p with
      | true => rw [if_pos rfl, hc]; rfl
      | false => exact hf hR

end Overlay
