import AuxKernel.System
import AuxKernel.Basic
import Mathlib.Data.Finset.Image
import Mathlib.Data.Finset.Range

/-!
# Resource maps

`malloc` and `mfree` of `PAGING/os/malloc.c`: a map is an array, of which the first entry
counts those that may still be added (`mapsize`), and the others, up to the first of size zero,
are the free extents, by their addresses. An access behind the array is `none`.

Next to a map goes which units are allocated, and which were lost (`Resource`).
-/

namespace AuxKernel.Rmap

/-- An entry: a free extent, or the end. -/
structure Entry where
  m_size : ℤ
  m_addr : ℤ
  deriving DecidableEq, Repr

/-- The entries behind the first are moved onto it, up to the end. -/
def shiftDown : List Entry → Option (List Entry)
  | [] | [_] => none
  | _ :: e :: l => if e.m_size = 0 then some (e :: e :: l) else (shiftDown (e :: l)).map (e :: ·)

/-- An entry is put before the others, which move up; the end goes where the last was. -/
def shiftUp (x : Entry) : List Entry → Option (List Entry)
  | [] => none
  | e :: l => if e.m_size = 0 then some (x :: l) else (shiftUp e l).map (x :: ·)

/-- Take `size` units, from the first entry that has them: the address that is returned, if
    there is one, the entries, and what is added to `mapsize`. -/
def mallocLoop (size : ℤ) : List Entry → Option (Option ℤ × List Entry × ℤ)
  | [] => none
  | e :: l =>
    if e.m_size = 0 then some (none, e :: l, 0)
    else if e.m_size ≥ size then
      if e.m_size - size = 0 then
        (shiftDown (⟨0, toLong (e.m_addr + size)⟩ :: l)).map fun l => (some e.m_addr, l, 1)
      else some (some e.m_addr, ⟨e.m_size - size, toLong (e.m_addr + size)⟩ :: l, 0)
    else (mallocLoop size l).map fun (a, l, n) => (a, e :: l, n)

/-- Free `size` units at `a`, where the entry before is `prev` and those from here on are `l`:
    the entry before, and those from here on, and what is added to `mapsize`, or `none` if there
    is no room for an entry more. -/
def mfreeAt (size a mapsize : ℤ) (prev : Option Entry) (l : List Entry) :
    Option (Option Entry × List Entry × Option ℤ) :=
  match l with
  | [] => none
  | e :: l =>
    match prev.filter fun p => toLong (p.m_addr + p.m_size) = a with
    | some p =>
      if toLong (a + size) = e.m_addr then
        let p := { p with m_size := p.m_size + size + e.m_size }
        if e.m_size = 0 then some (some p, e :: l, some 1)
        else (shiftDown (e :: l)).map fun l => (some p, l, some 1)
      else some (some { p with m_size := p.m_size + size }, e :: l, some 0)
    | none =>
      if toLong (a + size) = e.m_addr ∧ e.m_size ≠ 0 then
        some (prev, ⟨e.m_size + size, e.m_addr - size⟩ :: l, some 0)
      else if mapsize = 0 then some (prev, e :: l, none)
      else (shiftUp ⟨size, a⟩ (e :: l)).map fun l => (prev, l, some (-1))

/-- Look for the place of `a`. -/
def mfreeLoop (size a mapsize : ℤ) (prev : Option Entry) :
    List Entry → Option (Option Entry × List Entry × Option ℤ)
  | [] => none
  | e :: l =>
    if e.m_addr ≤ a ∧ e.m_size ≠ 0 then
      (mfreeLoop size a mapsize (some e) l).map fun (e, l, n) => (prev, e.toList ++ l, n)
    else mfreeAt size a mapsize prev (e :: l)

/-- A map: how many entries may be added, whether someone waits for units, and the entries. -/
structure Map where
  mapsize : ℤ
  mapwant : Bool
  entries : List Entry
  deriving DecidableEq, Repr

/-- The address of `size` units; `none` where zero is returned. -/
def malloc (mp : Map) (size : ℤ) : Option (Option ℤ × Map) :=
  if size ≤ 0 then some (none, mp)
  else
    (mallocLoop size mp.entries).map fun (a, l, n) =>
      (a, { mp with entries := l, mapsize := mp.mapsize + n })

/-- Free units; and whether they are lost. Who waits is woken unless they are. -/
def mfree (mp : Map) (size a : ℤ) : Option (Bool × Map) :=
  if size ≤ 0 then some (false, mp)
  else
    (mfreeLoop size a mp.mapsize none mp.entries).map fun (_, l, n) =>
      match n with
      | none => (true, mp)
      | some n => (false, ⟨mp.mapsize + n, false, l⟩)

/-! ## The system -/

/-- A map, the units that are allocated, and those that were lost. -/
structure Resource where
  map : Map
  allocated : Finset ℤ
  lost : Finset ℤ
  deriving DecidableEq

/-- What is done with a map: units are allocated, or freed, or someone waits for them. -/
inductive Act
  | malloc (size : ℤ)
  | mfree (size a : ℤ)
  | want
  deriving DecidableEq, Repr

/-- The units of an extent. -/
def units (size a : ℤ) : Finset ℤ := (Finset.range size.toNat).image fun i : ℕ => a + i

/-- Only units that are allocated are freed. -/
def Resource.step (s : Resource) : Act → Option Resource
  | .malloc size =>
    (malloc s.map size).map fun (a, mp) =>
      ⟨mp, s.allocated ∪ (a.elim ∅ (units size ·)), s.lost⟩
  | .mfree size a =>
    if units size a ⊆ s.allocated then
      (mfree s.map size a).map fun (lost, mp) =>
        ⟨mp, s.allocated \ units size a, if lost then s.lost ∪ units size a else s.lost⟩
    else none
  | .want => some { s with map := { s.map with mapwant := true } }

/-- A map with one free extent, of `size` units at `a`, and room for `room` entries more. -/
def Resource.one (size a : ℤ) (room : ℕ) : Resource :=
  ⟨⟨room, false, ⟨size, a⟩ :: List.replicate (room + 1) ⟨0, 0⟩⟩, ∅, ∅⟩

/-- The map that starts with the extent. Its units are numbers of the machine. -/
def resources (size a : ℤ) (room : ℕ) : Machine Resource Act where
  init s := 0 < size ∧ size < 2 ^ 31 ∧ -2 ^ 31 ≤ a ∧ a + size ≤ 2 ^ 31 ∧
    s = Resource.one size a room
  next := Resource.step

end AuxKernel.Rmap
