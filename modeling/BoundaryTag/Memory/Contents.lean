/-!
# The contents of a memory

The bytes at all addresses, as a tree. A leaf has one byte everywhere; a fork takes the bytes before
a position from its left part, and those from the position on from its right part, which counts
its addresses from there. Since all positions are relative, a range that is copied shares the tree
it comes from, and equal bytes take no more room than one.

The main statements are `Contents.byte_patch`, for a range that is replaced, and
`Contents.byte_ofBytes`. The trees are kept balanced as AVL trees are, for which every fork keeps
its height; what a tree says of the bytes does not depend on that.
-/

namespace BoundaryTag

/-- A byte for every address. -/
inductive Contents where
  /-- One byte everywhere. -/
  | equal (value : UInt8)
  /-- Two parts that meet at a position. -/
  | fork (height position : Nat) (left right : Contents)

namespace Contents

/-- The byte at an address. -/
def byte : Contents → Nat → UInt8
  | .equal value, _ => value
  | .fork _ position left right, address =>
      if address < position then left.byte address else right.byte (address - position)

/-- The height of a tree, as its fork keeps it. -/
def height : Contents → Nat
  | .equal _ => 0
  | .fork height .. => height

@[simp] theorem byte_equal (value : UInt8) (address : Nat) :
    (equal value).byte address = value := rfl

@[simp] theorem byte_fork (height position : Nat) (left right : Contents) (address : Nat) :
    (fork height position left right).byte address =
      if address < position then left.byte address else right.byte (address - position) := rfl

/-! ## Putting parts together -/

/-- Two parts that meet at a position, under a fork. -/
def node (position : Nat) (left right : Contents) : Contents :=
  .fork (max left.height right.height + 1) position left right

/-- Two parts that meet at a position, of which the left one may be too high by one. -/
def lowerLeft (position : Nat) (left right : Contents) : Contents :=
  match left with
  | .equal _ => node position left right
  | .fork _ inner outside inside =>
      if left.height ≤ right.height + 1 ∨ position < inner then node position left right
      else match inside with
        | .fork _ middle first second =>
            if inside.height ≤ outside.height ∨ position < inner + middle then
              node inner outside (node (position - inner) inside right)
            else
              node (inner + middle) (node inner outside first)
                (node (position - (inner + middle)) second right)
        | .equal _ => node inner outside (node (position - inner) inside right)

/-- Two parts that meet at a position, of which the right one may be too high by one. -/
def lowerRight (position : Nat) (left right : Contents) : Contents :=
  match right with
  | .equal _ => node position left right
  | .fork _ inner inside outside =>
      if right.height ≤ left.height + 1 then node position left right
      else match inside with
        | .fork _ middle first second =>
            if inside.height ≤ outside.height ∨ inner < middle then
              node (position + inner) (node position left inside) outside
            else
              node (position + middle) (node position left first)
                (node (inner - middle) second outside)
        | .equal _ => node (position + inner) (node position left inside) outside

/-- Put a part behind the first bytes of a higher one. -/
def joinBelowLeft (right : Contents) (position : Nat) : Contents → Contents
  | .equal value => node position (.equal value) right
  | .fork height inner outside inside =>
      if height ≤ right.height + 1 then node position (.fork height inner outside inside) right
      else if inner < position then
        lowerRight inner outside (joinBelowLeft right (position - inner) inside)
      else joinBelowLeft right position outside

/-- Put the first bytes of a part before a higher one. -/
def joinBelowRight (left : Contents) (position : Nat) : Contents → Contents
  | .equal value => node position left (.equal value)
  | .fork height inner inside outside =>
      if height ≤ left.height + 1 then node position left (.fork height inner inside outside)
      else lowerLeft (position + inner) (joinBelowRight left position inside) outside

/-- The bytes of the left part up to a position, and those of the right part from there on. -/
def join (position : Nat) (left right : Contents) : Contents :=
  if position = 0 then right
  else if right.height < left.height then joinBelowLeft right position left
  else joinBelowRight left position right

@[simp] theorem byte_node (position : Nat) (left right : Contents) (address : Nat) :
    (node position left right).byte address =
      if address < position then left.byte address else right.byte (address - position) := rfl

theorem byte_lowerLeft (position : Nat) (left right : Contents) (address : Nat) :
    (lowerLeft position left right).byte address = (node position left right).byte address := by
  unfold lowerLeft
  split
  next => rfl
  next =>
    split
    next => rfl
    next =>
      split
      next =>
        split <;> grind [byte_node, byte_fork]
      next => grind [byte_node, byte_fork]

theorem byte_lowerRight (position : Nat) (left right : Contents) (address : Nat) :
    (lowerRight position left right).byte address = (node position left right).byte address := by
  unfold lowerRight
  split
  next => rfl
  next =>
    split
    next => rfl
    next =>
      split
      next =>
        split <;> grind [byte_node, byte_fork]
      next => grind [byte_node, byte_fork]

theorem byte_joinBelowLeft (right : Contents) (position : Nat) (left : Contents) (address : Nat) :
    (joinBelowLeft right position left).byte address =
      (node position left right).byte address := by
  fun_induction joinBelowLeft right position left generalizing address with
  | case1 => rfl
  | case2 => rfl
  | case3 position height inner outside inside hheight hinner ih =>
      grind [byte_lowerRight, byte_node, byte_fork]
  | case4 position height inner outside inside hheight hinner ih =>
      grind [byte_node, byte_fork]

theorem byte_joinBelowRight (left : Contents) (position : Nat) (right : Contents)
    (address : Nat) :
    (joinBelowRight left position right).byte address =
      (node position left right).byte address := by
  fun_induction joinBelowRight left position right with
  | case1 => rfl
  | case2 => rfl
  | case3 height inner inside outside hheight ih =>
      grind [byte_lowerLeft, byte_node, byte_fork]

/-- Joined parts meet at the position. -/
theorem byte_join (position : Nat) (left right : Contents) (address : Nat) :
    (join position left right).byte address =
      if address < position then left.byte address else right.byte (address - position) := by
  unfold join
  split
  next hzero => simp [hzero]
  next =>
    split
    · rw [byte_joinBelowLeft, byte_node]
    · rw [byte_joinBelowRight, byte_node]

/-! ## Taking parts -/

/-- Contents that agree on the first bytes, without a trace of the others. -/
def take (count : Nat) : Contents → Contents
  | .equal value => .equal value
  | .fork _ position left right =>
      if count ≤ position then left.take count
      else join position left (right.take (count - position))

/-- The contents from an address on. -/
def drop (count : Nat) (contents : Contents) : Contents :=
  if count = 0 then contents
  else match contents with
    | .equal value => .equal value
    | .fork _ position left right =>
        if count < position then join (position - count) (left.drop count) right
        else right.drop (count - position)

theorem byte_take {contents : Contents} {count address : Nat} (h : address < count) :
    (contents.take count).byte address = contents.byte address := by
  fun_induction take count contents generalizing address with
  | case1 => rfl
  | case2 count height position left right hcount ih => grind [byte_fork]
  | case3 count height position left right hcount ih => grind [byte_fork, byte_join]

@[simp] theorem byte_drop (contents : Contents) (count address : Nat) :
    (contents.drop count).byte address = contents.byte (count + address) := by
  fun_induction drop count contents generalizing address with
  | case1 => grind
  | case2 => rfl
  | case3 => grind [byte_fork, byte_join]
  | case4 => grind [byte_fork, byte_join]

/-- Replace the range of `length` bytes from `start` on by the first bytes of other contents. -/
def patch (contents : Contents) (start length : Nat) (part : Contents) : Contents :=
  join start (contents.take start)
    (join length (part.take length) (contents.drop (start + length)))

/-- A replaced range has the new bytes, and all other bytes stay. -/
theorem byte_patch (contents part : Contents) (start length address : Nat) :
    (contents.patch start length part).byte address =
      if start ≤ address ∧ address < start + length then part.byte (address - start)
      else contents.byte address := by
  rw [patch, byte_join]
  split
  next hbefore => rw [byte_take hbefore, if_neg (by omega)]
  next hbehind =>
    rw [byte_join]
    split
    next hinside => rw [byte_take hinside, if_pos (by omega)]
    next houtside =>
      rw [byte_drop, if_neg (by omega)]
      congr 1
      omega

/-! ## Bytes one by one -/

/-- The bytes of a range. -/
def slice : Contents → Nat → Nat → List UInt8
  | .equal value, _, length => List.replicate length value
  | .fork _ position left right, start, length =>
      if start + length ≤ position then left.slice start length
      else if position ≤ start then right.slice (start - position) length
      else left.slice start (position - start) ++ right.slice 0 (start + length - position)

@[simp] theorem length_slice (contents : Contents) (start length : Nat) :
    (contents.slice start length).length = length := by
  fun_induction slice contents start length with
  | case1 => exact List.length_replicate
  | case2 _ _ _ _ _ _ _ ih => exact ih
  | case3 _ _ _ _ _ _ _ _ ih => exact ih
  | case4 _ _ _ _ _ _ _ _ ihleft ihright =>
      rw [List.length_append, ihleft, ihright]
      omega

theorem getElem?_slice (contents : Contents) (start length index : Nat) :
    (contents.slice start length)[index]? =
      if index < length then some (contents.byte (start + index)) else none := by
  fun_induction slice contents start length generalizing index with
  | case1 => rw [List.getElem?_replicate, byte_equal]
  | case2 => grind [byte_fork]
  | case3 => grind [byte_fork]
  | case4 => grind [byte_fork, length_slice]

/-- Contents that begin with these bytes. -/
def ofBytes : List UInt8 → Contents
  | [] => .equal 0
  | value :: values => join 1 (.equal value) (ofBytes values)

theorem byte_ofBytes {values : List UInt8} {index : Nat} (h : index < values.length) :
    (ofBytes values).byte index = values[index] := by
  induction values generalizing index with
  | nil => contradiction
  | cons value values ih =>
      rw [ofBytes, byte_join]
      cases index with
      | zero => rfl
      | succ index =>
          rw [if_neg (by omega), Nat.add_sub_cancel, ih (by simpa using h)]
          rfl

end Contents

end BoundaryTag
