/-!
# Lists in first-seen order

Layers are collected into lists in which each key has one element, placed where the key was first
seen. What comes later under a key changes its element and leaves its place.
-/

namespace Overlay

/-- Change the first element that is meant, or put a new one at the end if there is none. -/
def amend {α : Type} (meant : α → Bool) (change : α → α) (fresh : α) : List α → List α
  | [] => [fresh]
  | a :: rest => if meant a then change a :: rest else a :: amend meant change fresh rest

end Overlay
