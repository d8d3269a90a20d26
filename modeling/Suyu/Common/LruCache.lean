import Mathlib
import Suyu.Lib.ChangePoints
import Suyu.Lib.Linked

/-
  LeastRecentlyUsedCache - items in the order in which they were used last.

  1. **Program** - the items are in a pool and are linked in both directions by hand; freed places are
     used again, first in first out.  `Touch` moves an item to the end of the list.  `ForEachItemBelow`
     goes from the front and saves the next item before it calls the function, which may free the item
     it is called with.

  2. **Specification (`Orderly`, `CallsRight`)** - the list holds the live items by tick, and the
     function is called with the items up to the tick, in order, up to the first call that returns true.

  3. **The crux (`links_detach`)** - the pointers to the first and the last item are the links of a
     ROOT, so that `Attach` and `Detach` are insertion and removal in a ring around it, at the ends too.

  4. **When it goes wrong** - the test for a function that returns `bool` compares `std::invoke_result`
     itself with `bool`, not its type: it is never true, and no result stops the iteration.  And ticks
     are compared there by the sign of their difference as `s64`, which wraps, and as `u64` elsewhere.

  A pointer is the index of its item in the pool, which never moves one.
-/

namespace Suyu.Common

open Function (update update_comm update_idem update_apply update_eq_self_iff update_self update_of_ne)

open Lib.Linked

structure LruItem (Obj : Type) where
  obj : Obj
  tick : BitVec 64
  next : Option Nat
  prev : Option Nat

structure LruCache (Obj : Type) where
  itemPool : Nat → LruItem Obj
  poolSize : Nat
  freeItems : List Nat
  firstItem : Option Nat
  lastItem : Option Nat

namespace LruCache

variable {Obj : Type}

/-! ## The program -/

def create [Inhabited Obj] : LruCache Obj := ⟨fun _ => ⟨default, 0, none, none⟩, 0, [], none, none⟩

def modify (c : LruCache Obj) (id : Nat) (f : LruItem Obj → LruItem Obj) : LruCache Obj :=
  { c with itemPool := update c.itemPool id (f (c.itemPool id)) }

/-- `item->next = next`, if the item is not null. -/
def setNext (c : LruCache Obj) (item next : Option Nat) : LruCache Obj :=
  match item with
  | none => c
  | some id => c.modify id fun i => { i with next := next }

def setPrev (c : LruCache Obj) (item prev : Option Nat) : LruCache Obj :=
  match item with
  | none => c
  | some id => c.modify id fun i => { i with prev := prev }

/-- `Build`: the id and the cache afterwards. -/
def build (c : LruCache Obj) : Nat × LruCache Obj :=
  match c.freeItems with
  | [] =>
      let itemId := c.poolSize
      (itemId, { c with poolSize := c.poolSize + 1 }.modify itemId fun i =>
          { i with next := none, prev := none })
  | itemId :: freeItems =>
      (itemId, { c with freeItems := freeItems }.modify itemId fun i =>
          { i with next := none, prev := none })

def attach (c : LruCache Obj) (id : Nat) : LruCache Obj :=
  let c := if c.firstItem = none then { c with firstItem := some id } else c
  if c.lastItem = none then { c with lastItem := some id }
  else
    let c := c.setPrev (some id) c.lastItem
    let c := c.setNext c.lastItem (some id)
    let c := c.setNext (some id) none
    { c with lastItem := some id }

def detach (c : LruCache Obj) (id : Nat) : LruCache Obj :=
  let c := c.setNext (c.itemPool id).prev (c.itemPool id).next
  let c := c.setPrev (c.itemPool id).next (c.itemPool id).prev
  let c :=
    if c.firstItem = some id then
      let c := { c with firstItem := (c.itemPool id).next }
      c.setPrev c.firstItem none
    else c
  if c.lastItem = some id then
    let c := { c with lastItem := (c.itemPool id).prev }
    c.setNext c.lastItem none
  else c

def insert (c : LruCache Obj) (obj : Obj) (tick : BitVec 64) : Nat × LruCache Obj :=
  let built := c.build
  (built.1, (built.2.modify built.1 fun i => { i with obj := obj, tick := tick }).attach built.1)

def touch (c : LruCache Obj) (id : Nat) (tick : BitVec 64) : LruCache Obj :=
  if (c.itemPool id).tick ≥ tick then c
  else
    let c := c.modify id fun i => { i with tick := tick }
    if c.lastItem = some id then c else (c.detach id).attach id

def free (c : LruCache Obj) (id : Nat) : LruCache Obj :=
  let c := (c.detach id).modify id fun i => { i with next := none, prev := none }
  { c with freeItems := c.freeItems ++ [id] }

/-- The types that the test on the function sees. -/
inductive CxxType where
  | void
  | bool
  /-- `std::invoke_result<Func, ObjectType>`, a struct with a member `type`. -/
  | invokeResult (type : CxxType)
  deriving DecidableEq

/-- `std::is_same_v<std::invoke_result<Func, ObjectType>, bool>` -/
def returnsBool (result : CxxType) : Bool := CxxType.invokeResult result = CxxType.bool

/-- What one call of the function does: it may free the item it is called with, and it returns a value. -/
structure CallbackResult where
  frees : Bool
  returned : Bool

/-- The function: it may depend on the calls so far, and its result is of type `void` or `bool`. -/
structure Callback (Obj : Type) where
  result : CxxType
  call : List Nat → Nat → Obj → CallbackResult

/-- `while (iterator)`; the list has at most as many items as the pool.  The ids of the calls, and the
cache.  The difference of the ticks as `s64` wraps (the program is built with `-fwrapv`). -/
def forEachLoop (tick : BitVec 64) (func : Callback Obj) :
    Nat → Option Nat → List Nat → LruCache Obj → List Nat × LruCache Obj
  | 0, _, called, c => (called, c)
  | _ + 1, none, called, c => (called, c)
  | fuel + 1, some id, called, c =>
      if (tick - (c.itemPool id).tick).toInt < 0 then (called, c)
      else
        let next := (c.itemPool id).next
        let r := func.call called id (c.itemPool id).obj
        let c := if r.frees then c.free id else c
        if returnsBool func.result ∧ r.returned then (called ++ [id], c)
        else forEachLoop tick func fuel next (called ++ [id]) c

def forEachItemBelow (c : LruCache Obj) (tick : BitVec 64) (func : Callback Obj) :
    List Nat × LruCache Obj :=
  forEachLoop tick func c.poolSize c.firstItem [] c

/-! ## Specification -/

/-- The live items: their objects and ticks. -/
abbrev Live (Obj : Type) := Nat → Option (Obj × BitVec 64)

/-- The pointers, with the root as the item before the first and after the last one. -/
def nextOf (c : LruCache Obj) : Option Nat → Option Nat
  | none => c.firstItem
  | some id => (c.itemPool id).next

def prevOf (c : LruCache Obj) : Option Nat → Option Nat
  | none => c.lastItem
  | some id => (c.itemPool id).prev

/-- The list `order` is linked and holds exactly the live items, by tick. -/
structure Orderly (c : LruCache Obj) (live : Live Obj) (order : List Nat) : Prop where
  linked : DoublyLinked c.nextOf c.prevOf order
  mem : ∀ id, id ∈ order ↔ live id ≠ none
  item : ∀ id obj tick, live id = some (obj, tick) →
    (c.itemPool id).obj = obj ∧ (c.itemPool id).tick = tick
  sorted : order.Pairwise fun i j => (c.itemPool i).tick ≤ (c.itemPool j).tick

/-- The calls with the ids of a list, up to the first one that returns true. -/
def callsUntilTrue (c : LruCache Obj) (func : Callback Obj) (called : List Nat) : List Nat → List Nat
  | [] => []
  | id :: ids =>
      if func.result = .bool ∧ (func.call called id (c.itemPool id).obj).returned then [id]
      else id :: callsUntilTrue c func (called ++ [id]) ids

/-- The live items up to a tick, in their order. -/
def itemsBelow (c : LruCache Obj) (order : List Nat) (tick : BitVec 64) : List Nat :=
  order.filter fun id => decide ((c.itemPool id).tick ≤ tick)

/-- The function is called with the items up to the tick, up to the first call that returns true. -/
def CallsRight (c : LruCache Obj) (order : List Nat) (tick : BitVec 64) (func : Callback Obj) : Prop :=
  (c.forEachItemBelow tick func).1 = callsUntilTrue c func [] (itemsBelow c order tick)

/-- The sign of a wrapped difference tells the live items that matter apart: none is `2^63` or more below the
tick, and where some are above it, one is above it by at most `2^63`. -/
structure Near (live : Live Obj) (tick : BitVec 64) : Prop where
  below : ∀ id obj t, live id = some (obj, t) → t ≤ tick → tick.toNat - t.toNat < 2 ^ 63
  above : ∀ id obj t, live id = some (obj, t) → tick < t →
    ∃ id₀ obj₀ t₀, live id₀ = some (obj₀, t₀) ∧ tick < t₀ ∧ t₀.toNat - tick.toNat ≤ 2 ^ 63

/-- Of the calls with the ids of a list, only the last may return true. -/
def OnlyLastTrue (c : LruCache Obj) (func : Callback Obj) (called : List Nat) : List Nat → Prop
  | [] => True
  | id :: ids =>
      (ids = [] ∨ ¬ (func.result = .bool ∧ (func.call called id (c.itemPool id).obj).returned = true)) ∧
        OnlyLastTrue c func (called ++ [id]) ids

/-- The live items after a function was called with some of them. -/
def afterCalls (func : Callback Obj) (live : Live Obj) : List Nat → List Nat → Live Obj
  | _, [] => live
  | called, id :: ids =>
      let live' := match live id with
        | some (obj, _) => if (func.call called id obj).frees then update live id none else live
        | none => live
      afterCalls func live' (called ++ [id]) ids

/-- Calls with ticks that do not decrease, on live ids. -/
inductive Run [Inhabited Obj] : LruCache Obj → Live Obj → BitVec 64 → Prop where
  | create : Run create (fun _ => none) 0
  | insert {c live now} (obj : Obj) {tick} : Run c live now → now ≤ tick →
      Run (c.insert obj tick).2 (update live (c.insert obj tick).1 (some (obj, tick))) tick
  | touch {c live now id obj old tick} : Run c live now → now ≤ tick → live id = some (obj, old) →
      Run (c.touch id tick) (update live id (some (obj, if old ≥ tick then old else tick))) tick
  | free {c live now id} : Run c live now → live id ≠ none → Run (c.free id)
      (update live id none) now
  | forEach {c live now} (tick : BitVec 64) (func : Callback Obj) : Run c live now →
      Run (c.forEachItemBelow tick func).2
        (afterCalls func live [] (c.forEachItemBelow tick func).1) now

/-! ## Writing links -/

section Links

variable {c : LruCache Obj} {id j : Nat} {item next prev x : Option Nat}

theorem modify_apply {f : LruItem Obj → LruItem Obj} {α : Type} (field : LruItem Obj → α) :
    field ((c.modify id f).itemPool j) = if j = id then field (f (c.itemPool j))
        else field (c.itemPool j) := by
  show field (update c.itemPool id (f (c.itemPool id)) j) = _
  by_cases hj : j = id
  · subst hj
    rw [update_self, if_pos rfl]
  · rw [update_of_ne hj, if_neg hj]

@[simp] theorem nextOf_setNext (hx : x ≠ none) :
    (c.setNext x next).nextOf = update c.nextOf x next := by
  obtain ⟨id, rfl⟩ := Option.ne_none_iff_exists'.1 hx
  funext y
  cases y with
  | none => exact (update_of_ne hx.symm _ _).symm
  | some j =>
    show ((c.modify id fun i => { i with next := next }).itemPool j).next = _
    rw [modify_apply LruItem.next, update_apply]
    simp only [Option.some.injEq]; rfl

@[simp] theorem prevOf_setPrev (hx : x ≠ none) :
    (c.setPrev x prev).prevOf = update c.prevOf x prev := by
  obtain ⟨id, rfl⟩ := Option.ne_none_iff_exists'.1 hx
  funext y
  cases y with
  | none => exact (update_of_ne hx.symm _ _).symm
  | some j =>
    show ((c.modify id fun i => { i with prev := prev }).itemPool j).prev = _
    rw [modify_apply LruItem.prev, update_apply]
    simp only [Option.some.injEq]; rfl

@[simp] theorem prevOf_setNext : (c.setNext item next).prevOf = c.prevOf := by
  cases item with
  | none => rfl
  | some id =>
    funext y
    cases y with
    | none => rfl
    | some j =>
      show ((c.modify id fun i => { i with next := next }).itemPool j).prev = (c.itemPool j).prev
      rw [modify_apply LruItem.prev, ite_self]

@[simp] theorem nextOf_setPrev : (c.setPrev item prev).nextOf = c.nextOf := by
  cases item with
  | none => rfl
  | some id =>
    funext y
    cases y with
    | none => rfl
    | some j =>
      show ((c.modify id fun i => { i with prev := prev }).itemPool j).next = (c.itemPool j).next
      rw [modify_apply LruItem.next, ite_self]

@[simp] theorem nextOf_firstItem :
    ({ c with firstItem := x } : LruCache Obj).nextOf = update c.nextOf none x := by
  funext y
  cases y with
  | none => rw [update_self]; rfl
  | some j => rw [update_of_ne (Option.some_ne_none j)]; rfl

@[simp] theorem prevOf_lastItem :
    ({ c with lastItem := x } : LruCache Obj).prevOf = update c.prevOf none x := by
  funext y
  cases y with
  | none => rw [update_self]; rfl
  | some j => rw [update_of_ne (Option.some_ne_none j)]; rfl

@[simp] theorem nextOf_lastItem : ({ c with lastItem := x } : LruCache Obj).nextOf = c.nextOf := by
  funext y
  cases y <;> rfl

@[simp] theorem prevOf_firstItem : ({ c with firstItem := x } : LruCache Obj).prevOf = c.prevOf := by
  funext y
  cases y <;> rfl

@[simp] theorem setNext_none : c.setNext none next = c := rfl

@[simp] theorem setPrev_none : c.setPrev none prev = c := rfl

/-- What is no link: the objects, the ticks and the places. -/
structure SameItems (c c' : LruCache Obj) : Prop where
  obj : ∀ id, (c'.itemPool id).obj = (c.itemPool id).obj
  tick : ∀ id, (c'.itemPool id).tick = (c.itemPool id).tick
  poolSize : c'.poolSize = c.poolSize
  freeItems : c'.freeItems = c.freeItems

theorem SameItems.refl (c : LruCache Obj) : SameItems c c := ⟨fun _ => rfl, fun _ => rfl, rfl, rfl⟩

theorem SameItems.symm {c' : LruCache Obj} (h : SameItems c c') : SameItems c' c :=
  ⟨fun id => (h.obj id).symm, fun id => (h.tick id).symm, h.poolSize.symm, h.freeItems.symm⟩

theorem SameItems.trans {c' c'' : LruCache Obj} (h : SameItems c c') (h' : SameItems c' c'') :
    SameItems c c'' :=
  ⟨fun id => (h'.obj id).trans (h.obj id), fun id => (h'.tick id).trans (h.tick id),
    h'.poolSize.trans h.poolSize, h'.freeItems.trans h.freeItems⟩

theorem sameItems_modify (c : LruCache Obj) (id : Nat) (f : LruItem Obj → LruItem Obj)
    (hobj : ∀ i, (f i).obj = i.obj) (htick : ∀ i, (f i).tick = i.tick) : SameItems c (c.modify id f) := by
  refine ⟨fun j => ?_, fun j => ?_, rfl, rfl⟩
  · rw [modify_apply LruItem.obj, hobj, ite_self]
  · rw [modify_apply LruItem.tick, htick, ite_self]

theorem sameItems_setNext (c : LruCache Obj) (item next : Option Nat) :
    SameItems c (c.setNext item next) := by
  cases item with
  | none => exact SameItems.refl c
  | some id => exact sameItems_modify c id (fun i => { i with next := next }) (fun _ => rfl) fun _ => rfl

theorem sameItems_setPrev (c : LruCache Obj) (item prev : Option Nat) :
    SameItems c (c.setPrev item prev) := by
  cases item with
  | none => exact SameItems.refl c
  | some id => exact sameItems_modify c id (fun i => { i with prev := prev }) (fun _ => rfl) fun _ => rfl

theorem sameItems_attach (c : LruCache Obj) (id : Nat) : SameItems c (c.attach id) := by
  rw [attach]
  have hfirst : SameItems c (if c.firstItem = none then { c with firstItem := some id } else c) := by
    split
    · exact ⟨fun _ => rfl, fun _ => rfl, rfl, rfl⟩
    · exact SameItems.refl c
  dsimp only
  generalize (if c.firstItem = none then { c with firstItem := some id } else c) = c₁ at hfirst ⊢
  refine hfirst.trans ?_
  split
  · exact ⟨fun _ => rfl, fun _ => rfl, rfl, rfl⟩
  · have hprev := sameItems_setPrev c₁ (some id) c₁.lastItem
    generalize c₁.setPrev (some id) c₁.lastItem = c₂ at hprev ⊢
    have hnext := sameItems_setNext c₂ c₂.lastItem (some id)
    generalize c₂.setNext c₂.lastItem (some id) = c₃ at hnext ⊢
    exact hprev.trans (hnext.trans ((sameItems_setNext c₃ (some id) none).trans
      ⟨fun _ => rfl, fun _ => rfl, rfl, rfl⟩))

theorem sameItems_detach (c : LruCache Obj) (id : Nat) : SameItems c (c.detach id) := by
  rw [detach]
  have hnext := sameItems_setNext c (c.itemPool id).prev (c.itemPool id).next
  dsimp only
  generalize c.setNext (c.itemPool id).prev (c.itemPool id).next = c₁ at hnext ⊢
  have hprev := sameItems_setPrev c₁ (c₁.itemPool id).next (c₁.itemPool id).prev
  generalize c₁.setPrev (c₁.itemPool id).next (c₁.itemPool id).prev = c₂ at hprev ⊢
  refine hnext.trans (hprev.trans ?_)
  have hfirst : SameItems c₂ (if c₂.firstItem = some id then
      ({ c₂ with firstItem := (c₂.itemPool id).next } : LruCache Obj).setPrev (c₂.itemPool id).next none
      else c₂) := by
    split
    · have hset : SameItems c₂ { c₂ with firstItem := (c₂.itemPool id).next } :=
        ⟨fun _ => rfl, fun _ => rfl, rfl, rfl⟩
      exact hset.trans (sameItems_setPrev _ _ none)
    · exact SameItems.refl c₂
  refine hfirst.trans ?_
  generalize (if c₂.firstItem = some id then
      ({ c₂ with firstItem := (c₂.itemPool id).next } : LruCache Obj).setPrev (c₂.itemPool id).next none
      else c₂) = c₃
  split
  · have hset : SameItems c₃ { c₃ with lastItem := (c₃.itemPool id).prev } :=
      ⟨fun _ => rfl, fun _ => rfl, rfl, rfl⟩
    exact hset.trans (sameItems_setNext _ _ none)
  · exact SameItems.refl c₃

end Links

/-! ## Attaching and detaching -/

section Ring

variable {c : LruCache Obj} {id : Nat} {next prev : Option Nat} {order l₁ l₂ : List Nat}

theorem links_detach (hn : c.nextOf (some id) = next) (hp : c.prevOf (some id) = prev)
    (hfirst : c.firstItem = some id ↔ prev = none) (hlast : c.lastItem = some id ↔ next = none)
    (hne : next ≠ some id) (hpe : prev ≠ some id) :
    (c.detach id).nextOf = update c.nextOf prev next ∧
      (c.detach id).prevOf = update c.prevOf next prev := by
  have heq : c.detach id =
      (let c := c.setNext (c.prevOf (some id)) (c.nextOf (some id))
      let c := c.setPrev (c.nextOf (some id)) (c.prevOf (some id))
      let c := if c.nextOf none = some id then
          ({ c with firstItem := c.nextOf (some id) } : LruCache Obj).setPrev (c.nextOf (some id))
              none else c
      if c.prevOf none = some id then
          ({ c with lastItem := c.prevOf (some id) } : LruCache Obj).setNext (c.prevOf (some id))
              none else c) := rfl
  rw [heq]
  have hfirst' : c.nextOf none = some id ↔ prev = none := hfirst
  have hlast' : c.prevOf none = some id ↔ next = none := hlast
  -- the ends of the list: there the neighbour is the root, and a pointer of the cache is written
  cases prev with
  | none =>
    cases next with
    | none =>
      simp only [hn, hp, hfirst', hlast', if_true, setNext_none, setPrev_none, prevOf_firstItem]
      constructor
      · funext y
        cases y <;> rfl
      · funext y
        cases y <;> rfl
    | some n => simp [hn, hp, hfirst', hlast']
  | some p =>
    have hidp : ¬ id = p := fun h => hpe (congrArg some h.symm)
    cases next with
    | none => simp [hn, hp, hfirst', hlast', hidp]
    | some n => simp [hn, hp, hfirst', hlast', hidp]

theorem links_detach_of_linked (hl : DoublyLinked c.nextOf c.prevOf (l₁ ++ id :: l₂)) :
    (c.detach id).nextOf = update c.nextOf l₁.getLast? l₂.head? ∧
      (c.detach id).prevOf = update c.prevOf l₂.head? l₁.getLast? := by
  have hnd := List.nodup_middle.1 hl.nodup
  have hid : id ∉ l₁ ++ l₂ := (List.nodup_cons.1 hnd).1
  have hl' : DoublyLinked c.nextOf c.prevOf ((l₁ ++ [id]) ++ l₂) := by
    rwa [List.append_assoc]
  have hnext := hl'.next_getLast?
  rw [List.getLast?_concat] at hnext
  refine links_detach hnext hl.prev_head? ?_ ?_ ?_ ?_
  · have hfirst : c.firstItem = (l₁ ++ id :: l₂).head? := (hl.forward.head?_eq).symm
    rw [hfirst]
    cases l₁ with
    | nil => simp
    | cons a l₁ =>
      have hne : a ≠ id := fun h => hid (h ▸ List.mem_append_left _ List.mem_cons_self)
      simp [hne]
  · have hlast : c.lastItem = (l₁ ++ id :: l₂).getLast? := by
      rw [← List.head?_reverse]; exact (hl.backward.head?_eq).symm
    rw [hlast]
    rcases List.eq_nil_or_concat l₂ with rfl | ⟨l, a, rfl⟩
    · simp
    · have hne : a ≠ id := fun h => hid (h ▸ List.mem_append_right _ (by simp))
      have hsplit : l₁ ++ id :: l.concat a = (l₁ ++ id :: l) ++ [a] := by simp
      rw [hsplit, List.getLast?_concat]; simp [hne]
  · intro h
    exact hid (List.mem_append_right _ (List.mem_of_head? h))
  · intro h; exact hid (List.mem_append_left _ (List.mem_of_getLast? h))

theorem linked_detach (hl : DoublyLinked c.nextOf c.prevOf (l₁ ++ id :: l₂)) :
    DoublyLinked (c.detach id).nextOf (c.detach id).prevOf (l₁ ++ l₂) := by
  obtain ⟨hn, hp⟩ := links_detach_of_linked hl
  rw [hn, hp]
  exact hl.unlink

theorem attach_of_empty (hfirst : c.firstItem = none) (hlast : c.lastItem = none) :
    c.attach id = { c with firstItem := some id, lastItem := some id } := by
  simp [attach, hfirst, hlast]

theorem attach_of_last {last : Nat} (hfirst : c.firstItem ≠ none) (hlast : c.lastItem = some last) :
    c.attach id = { ((c.setPrev (some id) (some last)).setNext (some last)
        (some id)).setNext (some id) none with
      lastItem := some id } := by
  have hlast' : (c.setPrev (some id) (some last)).lastItem = some last := hlast
  simp [attach, hfirst, hlast, hlast']

theorem linked_attach (hl : DoublyLinked c.nextOf c.prevOf order) (hid : id ∉ order)
    (hnone : order = [] → c.nextOf (some id) = none ∧ c.prevOf (some id) = none) :
    DoublyLinked (c.attach id).nextOf (c.attach id).prevOf (order ++ [id]) := by
  have hfirst : c.firstItem = order.head? := (hl.forward.head?_eq).symm
  have hlast : c.lastItem = order.getLast? := by
    rw [← List.head?_reverse]; exact (hl.backward.head?_eq).symm
  have hins : DoublyLinked (insertAfter c.nextOf order.getLast? id none)
      (insertAfter c.prevOf none id order.getLast?) (order ++ [id]) := by
    have hl' : DoublyLinked c.nextOf c.prevOf (order ++ []) := by rwa [List.append_nil]
    exact hl'.insert (by rwa [List.append_nil])
  cases hlast? : order.getLast? with
  | none =>
    have hnil : order = [] := List.getLast?_eq_none_iff.1 hlast?
    obtain ⟨hn, hp⟩ := hnone hnil
    rw [attach_of_empty (by rw [hfirst, hnil]; rfl) (hlast.trans hlast?)]
    have hnext : update c.nextOf (some id) none = c.nextOf :=
      update_eq_self_iff.2 hn.symm
    have hprev : update c.prevOf (some id) none = c.prevOf :=
      update_eq_self_iff.2 hp.symm
    rw [hlast?, insertAfter, insertAfter, hnext, hprev] at hins
    refine hins.congr rfl rfl ?_ ?_
    · intro a _
      exact (update_of_ne (Option.some_ne_none a) _ _).symm
    · intro a _; exact (update_of_ne (Option.some_ne_none a) _ _).symm
  | some last =>
    have hne : some last ≠ some id := by
      intro h; exact hid (List.mem_of_getLast? (hlast?.trans h))
    have hfirst' : c.firstItem ≠ none := by
      rw [hfirst]
      intro h
      rw [List.head?_eq_none_iff.1 h] at hlast?; cases hlast?
    rw [attach_of_last hfirst' (hlast.trans hlast?)]
    rw [hlast?, insertAfter, insertAfter, update_comm hne.symm] at hins
    simpa using hins

end Ring

/-! ## The invariant -/

section Invariant

variable {c : LruCache Obj} {live : Live Obj} {now : BitVec 64} {order l₁ l₂ : List Nat} {id : Nat}

/-- What holds between two calls: the list, the free places, and no tick is later than the last one. -/
structure Inv (c : LruCache Obj) (live : Live Obj) (now : BitVec 64) (order : List Nat) : Prop
    extends Orderly c live order where
  live_lt : ∀ id, live id ≠ none → id < c.poolSize
  free_nodup : c.freeItems.Nodup
  free_lt : ∀ id ∈ c.freeItems, id < c.poolSize
  free_dead : ∀ id ∈ c.freeItems, live id = none
  tick_le : ∀ id obj tick, live id = some (obj, tick) → tick ≤ now

variable {tick : BitVec 64}

theorem Orderly.tick_eq (h : Orderly c live order) {obj : Obj} (hlive : live id = some (obj, tick)) :
    (c.itemPool id).tick = tick := (h.item id obj tick hlive).2

/-- The same items apart from one of them. -/
structure SameBut (id : Nat) (c c' : LruCache Obj) : Prop where
  obj : ∀ j, j ≠ id → (c'.itemPool j).obj = (c.itemPool j).obj
  tick : ∀ j, j ≠ id → (c'.itemPool j).tick = (c.itemPool j).tick
  poolSize : c'.poolSize = c.poolSize
  freeItems : c'.freeItems = c.freeItems

theorem SameItems.but {c' : LruCache Obj} (h : SameItems c c') (id : Nat) : SameBut id c c' :=
  ⟨fun j _ => h.obj j, fun j _ => h.tick j, h.poolSize, h.freeItems⟩

theorem SameBut.trans {c' c'' : LruCache Obj} (h : SameBut id c c') (h' : SameBut id c' c'') :
    SameBut id c c'' :=
  ⟨fun j hj => (h'.obj j hj).trans (h.obj j hj), fun j hj => (h'.tick j hj).trans (h.tick j hj),
    h'.poolSize.trans h.poolSize, h'.freeItems.trans h.freeItems⟩

theorem sameBut_modify (c : LruCache Obj) (id : Nat) (f : LruItem Obj → LruItem Obj) :
    SameBut id c (c.modify id f) := by
  refine ⟨fun j hj => ?_, fun j hj => ?_, rfl, rfl⟩
  · rw [modify_apply LruItem.obj, if_neg hj]
  · rw [modify_apply LruItem.tick, if_neg hj]

theorem Inv.atEnd (h : Inv c live now order) (hid : id ∉ order) {c' : LruCache Obj}
    (hsame : SameBut id c c') (hlinked : DoublyLinked c'.nextOf c'.prevOf (order ++ [id]))
    (hlt : id < c.poolSize) (hfree : id ∉ c.freeItems) {obj : Obj} (hobj : (c'.itemPool id).obj = obj)
    (htick : (c'.itemPool id).tick = tick) (hnow : now ≤ tick) :
    Inv c' (update live id (some (obj, tick))) tick (order ++ [id]) := by
  have hne : ∀ j ∈ order, j ≠ id := fun j hj he => hid (he ▸ hj)
  refine ⟨⟨hlinked, ?_, ?_, ?_⟩, ?_, ?_, ?_, ?_, ?_⟩
  · intro j
    rw [List.mem_append, List.mem_singleton, h.mem]
    by_cases hj : j = id
    · subst hj
      simp
    · rw [update_of_ne hj]; simp [hj]
  · intro j obj' t hj
    by_cases he : j = id
    · subst he
      rw [update_self] at hj
      obtain ⟨rfl, rfl⟩ := Prod.mk.inj (Option.some.inj hj)
      exact ⟨hobj, htick⟩
    · rw [update_of_ne he] at hj
      rw [hsame.obj j he, hsame.tick j he]; exact h.item j obj' t hj
  · rw [List.pairwise_append]
    refine ⟨?_, List.pairwise_singleton _ _, ?_⟩
    · refine h.sorted.imp_of_mem fun {i j} hi hj hij => ?_
      rwa [hsame.tick i (hne i hi), hsame.tick j (hne j hj)]
    · intro i hi j hj
      rw [List.mem_singleton.1 hj, hsame.tick i (hne i hi), htick]
      obtain ⟨⟨obj', t⟩, hlive⟩ := Option.ne_none_iff_exists'.1 ((h.mem i).1 hi)
      rw [h.tick_eq hlive]; exact BitVec.le_trans (h.tick_le i obj' t hlive) hnow
  · intro j hj
    rw [hsame.poolSize]
    by_cases he : j = id
    · rwa [he]
    · rw [update_of_ne he] at hj; exact h.live_lt j hj
  · rw [hsame.freeItems]
    exact h.free_nodup
  · rw [hsame.freeItems, hsame.poolSize]
    exact h.free_lt
  · rw [hsame.freeItems]
    intro j hj
    have he : j ≠ id := fun he => hfree (he ▸ hj)
    rw [update_of_ne he]
    exact h.free_dead j hj
  · intro j obj' t hj
    by_cases he : j = id
    · rw [he, update_self] at hj
      rw [← (Prod.mk.inj (Option.some.inj hj)).2]
      exact BitVec.le_refl _
    · rw [update_of_ne he] at hj; exact BitVec.le_trans (h.tick_le j obj' t hj) hnow

theorem Inv.detach {c' : LruCache Obj} (h : Inv c live now (l₁ ++ id :: l₂)) (hsame : SameBut id c c')
    (hnext : c'.nextOf = c.nextOf) (hprev : c'.prevOf = c.prevOf) :
    Inv (c'.detach id) (update live id none) now (l₁ ++ l₂) := by
  replace hsame := hsame.trans ((sameItems_detach c' id).but id)
  have hid : id ∉ l₁ ++ l₂ := (List.nodup_cons.1 (List.nodup_middle.1 h.linked.nodup)).1
  have hne : ∀ j ∈ l₁ ++ l₂, j ≠ id := fun j hj he => hid (he ▸ hj)
  have hlinked : DoublyLinked c'.nextOf c'.prevOf (l₁ ++ id :: l₂) := by
    rw [hnext, hprev]; exact h.linked
  have hsub : (l₁ ++ l₂).Sublist (l₁ ++ id :: l₂) :=
    (List.Sublist.refl l₁).append (List.sublist_cons_self id l₂)
  have hold : ∀ j obj t, update live id none j = some (obj, t) →
      j ≠ id ∧ live j = some (obj, t) := by
    intro j obj t hj
    by_cases he : j = id
    · rw [he, update_self] at hj
      exact nomatch hj
    · rw [update_of_ne he] at hj; exact ⟨he, hj⟩
  refine ⟨⟨linked_detach hlinked, ?_, ?_, ?_⟩, ?_, ?_, ?_, ?_, ?_⟩
  · intro j
    by_cases hj : j = id
    · subst hj
      simp [hid]
    · rw [update_of_ne hj, ← h.mem]; simp [hj]
  · intro j obj t hj
    obtain ⟨he, hlive⟩ := hold j obj t hj
    rw [hsame.obj j he, hsame.tick j he]
    exact h.item j obj t hlive
  · refine (h.sorted.sublist hsub).imp_of_mem fun {i j} hi hj hij => ?_
    rwa [hsame.tick i (hne i hi), hsame.tick j (hne j hj)]
  · intro j hj
    rw [hsame.poolSize]
    obtain ⟨⟨obj, t⟩, hlive⟩ := Option.ne_none_iff_exists'.1 hj
    exact h.live_lt j (by rw [(hold j obj t hlive).2]; exact Option.some_ne_none _)
  · rw [hsame.freeItems]
    exact h.free_nodup
  · rw [hsame.freeItems, hsame.poolSize]
    exact h.free_lt
  · rw [hsame.freeItems]
    intro j hj
    by_cases he : j = id
    · rw [he, update_self]
    · rw [update_of_ne he]; exact h.free_dead j hj
  · intro j obj t hj; exact h.tick_le j obj t (hold j obj t hj).2

theorem Inv.modify_of_notMem (h : Inv c live now order) (hid : id ∉ order)
    (f : LruItem Obj → LruItem Obj) : Inv (c.modify id f) live now order := by
  have hsame := sameBut_modify c id f
  have hne : ∀ j ∈ order, j ≠ id := fun j hj he => hid (he ▸ hj)
  refine ⟨⟨?_, h.mem, ?_, ?_⟩, h.live_lt, h.free_nodup, h.free_lt, h.free_dead, h.tick_le⟩
  · refine h.linked.congr rfl rfl ?_ ?_
    · intro a ha
      show ((c.modify id f).itemPool a).next = (c.itemPool a).next
      rw [modify_apply LruItem.next, if_neg (hne a ha)]
    · intro a ha
      show ((c.modify id f).itemPool a).prev = (c.itemPool a).prev
      rw [modify_apply LruItem.prev, if_neg (hne a ha)]
  · intro j obj t hj
    have he : j ≠ id := hne j ((h.mem j).2 (by rw [hj]; exact Option.some_ne_none _))
    rw [hsame.obj j he, hsame.tick j he]
    exact h.item j obj t hj
  · refine h.sorted.imp_of_mem fun {i j} hi hj hij => ?_
    rwa [hsame.tick i (hne i hi), hsame.tick j (hne j hj)]

theorem Inv.notMem_of_dead (h : Inv c live now order) (hdead : live id = none) : id ∉ order :=
  fun hid => (h.mem id).1 hid hdead

theorem Orderly.places (h : Orderly c live order) (poolSize : Nat) (freeItems : List Nat) :
    Orderly { c with poolSize := poolSize, freeItems := freeItems } live order :=
  ⟨h.linked.congr rfl rfl (fun _ _ => rfl) fun _ _ => rfl, h.mem, h.item, h.sorted⟩

theorem Inv.build (h : Inv c live now order) :
    Inv c.build.2 live now order ∧ live c.build.1 = none ∧ c.build.1 < c.build.2.poolSize ∧
      c.build.1 ∉ c.build.2.freeItems ∧ c.build.2.nextOf (some c.build.1) = none ∧
      c.build.2.prevOf (some c.build.1) = none := by
  cases hfree : c.freeItems with
  | nil =>
    have hdead : live c.poolSize = none := by
      by_contra hlive
      exact absurd (h.live_lt _ hlive) (Nat.lt_irrefl _)
    have hgrown : Inv { c with poolSize := c.poolSize + 1 } live now order :=
      ⟨h.toOrderly.places _ _, fun j hj => Nat.lt_succ_of_lt (h.live_lt j hj), h.free_nodup,
        fun j hj => Nat.lt_succ_of_lt (h.free_lt j hj), h.free_dead, h.tick_le⟩
    have hbuild : c.build
        = (c.poolSize, ({ c with poolSize := c.poolSize + 1 } : LruCache Obj).modify c.poolSize
        fun i => { i with next := none, prev := none }) := by
      rw [LruCache.build, hfree]
    rw [hbuild]
    have hset := hgrown.modify_of_notMem (h.notMem_of_dead hdead) fun i =>
        { i with next := none, prev := none }
    refine ⟨hset, hdead, Nat.lt_succ_self _, ?_, ?_, ?_⟩
    · show c.poolSize ∉ c.freeItems
      rw [hfree]
      exact List.not_mem_nil
    · simp [nextOf, modify]
    · simp [prevOf, modify]
  | cons id free =>
    have hmem : id ∈ c.freeItems := by
      rw [hfree]; exact List.mem_cons_self
    have hsub : ∀ j ∈ free, j ∈ c.freeItems := by
      intro j hj
      rw [hfree]; exact List.mem_cons_of_mem _ hj
    have hnodup : (id :: free).Nodup := hfree ▸ h.free_nodup
    have htaken : Inv { c with freeItems := free } live now order :=
      ⟨h.toOrderly.places _ _, h.live_lt, (List.nodup_cons.1 hnodup).2, fun j hj =>
          h.free_lt j (hsub j hj),
        fun j hj => h.free_dead j (hsub j hj), h.tick_le⟩
    have hbuild : c.build = (id, ({ c with freeItems := free } : LruCache Obj).modify id
        fun i => { i with next := none, prev := none }) := by
      rw [LruCache.build, hfree]
    rw [hbuild]
    have hset := htaken.modify_of_notMem (h.notMem_of_dead (h.free_dead id hmem))
      fun i => { i with next := none, prev := none }
    refine ⟨hset, h.free_dead id hmem, h.free_lt id hmem, (List.nodup_cons.1 hnodup).1, ?_, ?_⟩
    · simp [nextOf, modify]
    · simp [prevOf, modify]

theorem Inv.insert (h : Inv c live now order) (obj : Obj) {tick : BitVec 64} (hnow : now ≤ tick) :
    Inv (c.insert obj tick).2 (update live (c.insert obj tick).1 (some (obj, tick))) tick
      (order ++ [(c.insert obj tick).1]) := by
  obtain ⟨hbuilt, hdead, hlt, hfree, hn, hp⟩ := h.build
  have hid := hbuilt.notMem_of_dead hdead
  have hset := hbuilt.modify_of_notMem hid fun i => { i with obj := obj, tick := tick }
  have hsame := sameItems_attach (c.build.2.modify c.build.1 fun i =>
      { i with obj := obj, tick := tick }) c.build.1
  refine hset.atEnd hid (hsame.but _) ?_ hlt hfree ?_ ?_ hnow
  · refine linked_attach hset.linked hid fun _ => ?_
    constructor
    · simpa [nextOf, modify] using hn
    · simpa [prevOf, modify] using hp
  · exact (hsame.obj _).trans (by simp [modify])
  · exact (hsame.tick _).trans (by simp [modify])

theorem Inv.insert_fresh (h : Inv c live now order) (obj : Obj) (tick : BitVec 64) :
    live (c.insert obj tick).1 = none := h.build.2.1

theorem Inv.free (h : Inv c live now (l₁ ++ id :: l₂)) :
    Inv (c.free id) (update live id none) now (l₁ ++ l₂) := by
  have hdet := h.detach ((SameItems.refl c).but id) rfl rfl
  have hid : id ∉ l₁ ++ l₂ := hdet.notMem_of_dead (update_self _ _ _)
  have hset := hdet.modify_of_notMem hid fun i => { i with next := none, prev := none }
  have hlive : live id ≠ none := (h.mem id).1 (by simp)
  have hfree : (c.detach id).freeItems = c.freeItems := (sameItems_detach c id).freeItems
  have hpool : (c.detach id).poolSize = c.poolSize := (sameItems_detach c id).poolSize
  refine ⟨hset.toOrderly.places _ _, hset.live_lt, ?_, ?_, ?_, hset.tick_le⟩
  · show ((c.detach id).freeItems ++ [id]).Nodup
    rw [hfree, List.nodup_append']
    refine ⟨h.free_nodup, List.nodup_singleton id, ?_⟩
    intro j hj hj'
    rw [List.mem_singleton.1 hj'] at hj
    exact hlive (h.free_dead id hj)
  · intro j hj
    show j < (c.detach id).poolSize
    rcases List.mem_append.1 hj with hj | hj
    · exact hset.free_lt j hj
    · rw [List.mem_singleton.1 hj, hpool]; exact h.live_lt id hlive
  · intro j hj
    rcases List.mem_append.1 hj with hj | hj
    · exact hset.free_dead j hj
    · rw [List.mem_singleton.1 hj, update_self]

theorem nextOf_tick : (c.modify id fun i => { i with tick := tick }).nextOf = c.nextOf := by
  funext y
  cases y with
  | none => rfl
  | some j =>
    show ((c.modify id fun i => { i with tick := tick }).itemPool j).next = (c.itemPool j).next
    rw [modify_apply LruItem.next, ite_self]

theorem prevOf_tick : (c.modify id fun i => { i with tick := tick }).prevOf = c.prevOf := by
  funext y
  cases y with
  | none => rfl
  | some j =>
    show ((c.modify id fun i => { i with tick := tick }).itemPool j).prev = (c.itemPool j).prev
    rw [modify_apply LruItem.prev, ite_self]

theorem Inv.touch (h : Inv c live now (l₁ ++ id :: l₂)) {obj : Obj} {old tick : BitVec 64}
    (hlive : live id = some (obj, old)) (hnow : now ≤ tick) (hlater : ¬ old ≥ tick) :
    Inv (c.touch id tick) (update live id (some (obj, tick))) tick (l₁ ++ l₂ ++ [id]) := by
  obtain ⟨hobj, htick⟩ := h.item id obj old hlive
  have hsame := sameBut_modify c id fun i => { i with tick := tick }
  have hdet := h.detach hsame nextOf_tick prevOf_tick
  have hid : id ∉ l₁ ++ l₂ := hdet.notMem_of_dead (update_self _ _ _)
  have hlt := h.live_lt id (by rw [hlive]; exact Option.some_ne_none _)
  have hfree : id ∉ c.freeItems := by
    intro hmem
    rw [h.free_dead id hmem] at hlive; exact nomatch hlive
  have hobj' : ((c.modify id fun i => { i with tick := tick }).itemPool id).obj = obj := by
    simpa [modify] using hobj
  have htick' : ((c.modify id fun i => { i with tick := tick }).itemPool id).tick = tick := by
    simp [modify]
  have hlast : c.lastItem = (l₁ ++ id :: l₂).getLast? := by
    rw [← List.head?_reverse]; exact (h.linked.backward.head?_eq).symm
  have htouch : c.touch id tick = if c.lastItem = some id then c.modify id fun i =>
      { i with tick := tick }
      else ((c.modify id fun i => { i with tick := tick }).detach id).attach id := by
    rw [LruCache.touch, htick, if_neg hlater]; rfl
  have hdetached := sameItems_detach (c.modify id fun i => { i with tick := tick }) id
  have hlive' : update (update live id none) id (some (obj, tick)) =
      update live id (some (obj, tick)) := update_idem _ _ _
  rw [htouch, ← hlive']
  cases l₂ with
  | nil =>
    have hend : c.lastItem = some id := by rw [hlast, List.getLast?_concat]
    rw [if_pos hend]
    refine hdet.atEnd hid (hdetached.symm.but id) ?_ ?_ ?_ hobj' htick' hnow
    · rw [nextOf_tick, prevOf_tick, List.append_nil]
      exact h.linked
    · rw [hdetached.poolSize]
      exact hlt
    · rw [hdetached.freeItems]; exact hfree
  | cons a l₂ =>
    have hend : c.lastItem ≠ some id := by
      rw [hlast, List.getLast?_append_cons, List.getLast?_cons_cons]
      intro he; exact hid (List.mem_append_right _ (List.mem_of_getLast? he))
    have hattached := sameItems_attach ((c.modify id fun i => { i with tick := tick }).detach id) id
    rw [if_neg hend]
    refine hdet.atEnd hid (hattached.but id) (linked_attach hdet.linked hid ?_) ?_ ?_ ?_ ?_ hnow
    · intro hnil
      exact absurd (List.append_eq_nil_iff.1 hnil).2 (List.cons_ne_nil a l₂)
    · rw [hdetached.poolSize]
      exact hlt
    · rw [hdetached.freeItems]
      exact hfree
    · rw [hattached.obj, hdetached.obj, hobj']
    · rw [hattached.tick, hdetached.tick, htick']

theorem Inv.later (h : Inv c live now order) (hnow : now ≤ tick) : Inv c live tick order :=
  ⟨h.toOrderly, h.live_lt, h.free_nodup, h.free_lt, h.free_dead,
    fun id obj t hlive => BitVec.le_trans (h.tick_le id obj t hlive) hnow⟩

theorem Inv.length_le (h : Inv c live now order) : order.length ≤ c.poolSize := by
  have hsub : order ⊆ List.range c.poolSize := by
    intro id hid; exact List.mem_range.2 (h.live_lt id ((h.mem id).1 hid))
  simpa using (List.subperm_of_subset h.linked.nodup hsub).length_le

end Invariant

/-! ## The iteration -/

section Iteration

variable {c : LruCache Obj} {live : Live Obj} {now tick : BitVec 64} {func : Callback Obj}
  {order kept rest called : List Nat} {id fuel : Nat}

/-- The test of the loop on an item. -/
def reached (c : LruCache Obj) (tick : BitVec 64) (id : Nat) : Bool :=
  !decide ((tick - (c.itemPool id).tick).toInt < 0)

@[simp] theorem returnsBool_eq_false (result : CxxType) : returnsBool result = false := rfl

theorem reached_free : (c.free id).reached tick = c.reached tick := by
  funext j
  have hmod := sameItems_modify (c.detach id) id (fun i => { i with next := none, prev := none })
    (fun _ => rfl) fun _ => rfl
  have htick : ((c.free id).itemPool j).tick = (c.itemPool j).tick :=
    (hmod.tick j).trans ((sameItems_detach c id).tick j)
  rw [reached, reached, htick]

theorem forEachLoop_succ (hreached : c.reached tick id = true) :
    forEachLoop tick func (fuel + 1) (some id) called c =
      forEachLoop tick func fuel (c.nextOf (some id)) (called ++ [id])
        (if (func.call called id (c.itemPool id).obj).frees then c.free id else c) := by
  have hge : ¬ (tick - (c.itemPool id).tick).toInt < 0 := by
    simpa [reached] using hreached
  rw [forEachLoop, if_neg hge]
  simp
  rfl

/-- THE LOOP: it calls the function with the items that pass the test, up to the first that does not,
and the function may free the item it is called with. -/
theorem forEachLoop_spec (h : Inv c live now (kept ++ rest)) (hfuel : rest.length ≤ fuel) :
    (forEachLoop tick func fuel rest.head? called c).1 = called ++ rest.takeWhile (c.reached tick) ∧
      ∃ order, Inv (forEachLoop tick func fuel rest.head? called c).2
        (afterCalls func live called (rest.takeWhile (c.reached tick))) now order := by
  induction rest generalizing fuel kept called c live with
  | nil =>
    have hend : forEachLoop tick func fuel (([] : List Nat).head?) called c = (called, c) := by
      cases fuel <;> rfl
    rw [hend]
    exact ⟨(List.append_nil called).symm, kept, by rwa [List.append_nil] at h⟩
  | cons id rest ih =>
    obtain ⟨fuel, rfl⟩ : ∃ n, fuel = n + 1 := ⟨fuel - 1, by simp at hfuel; omega⟩
    have hfuel' : rest.length ≤ fuel := Nat.le_of_succ_le_succ hfuel
    rw [List.head?_cons]
    by_cases hreached : c.reached tick id = true
    · have hsplit : kept ++ id :: rest = (kept ++ [id]) ++ rest := by simp
      have hnext : c.nextOf (some id) = rest.head? := by
        have hl := h.linked
        rw [hsplit] at hl; simpa using hl.next_getLast?
      obtain ⟨⟨obj, t⟩, hlive⟩ := Option.ne_none_iff_exists'.1 ((h.mem id).1 (by simp))
      have hobj := (h.item id obj t hlive).1
      rw [forEachLoop_succ hreached, hnext, hobj, List.takeWhile_cons_of_pos hreached, afterCalls, hlive]
      dsimp only
      by_cases hfrees : (func.call called id obj).frees = true
      · rw [if_pos hfrees, if_pos hfrees]
        obtain ⟨hcalls, hinv⟩ := @ih _ _ kept (called ++ [id]) fuel h.free hfuel'
        rw [reached_free] at hcalls hinv
        exact ⟨by rw [hcalls, List.append_assoc, List.singleton_append], hinv⟩
      · rw [if_neg hfrees, if_neg hfrees]
        rw [hsplit] at h
        obtain ⟨hcalls, hinv⟩ := @ih _ _ (kept ++ [id]) (called ++ [id]) fuel h hfuel'
        exact ⟨by rw [hcalls, List.append_assoc, List.singleton_append], hinv⟩
    · have hlt : (tick - (c.itemPool id).tick).toInt < 0 := by
        simpa [reached] using hreached
      rw [forEachLoop, if_pos hlt, List.takeWhile_cons_of_neg hreached, List.append_nil]
      exact ⟨rfl, _, h⟩

theorem Inv.forEachItemBelow (h : Inv c live now order) (tick : BitVec 64) (func : Callback Obj) :
    (c.forEachItemBelow tick func).1 = order.takeWhile (c.reached tick) ∧
      ∃ order', Inv (c.forEachItemBelow tick func).2
        (afterCalls func live [] (c.forEachItemBelow tick func).1) now order' := by
  have hfirst : c.firstItem = order.head? := (h.linked.forward.head?_eq).symm
  have hspec := @forEachLoop_spec _ c live now tick func [] order [] c.poolSize h h.length_le
  rw [LruCache.forEachItemBelow, hfirst, hspec.1]
  exact ⟨rfl, hspec.2⟩

/-- EVERY RUN keeps the invariant. -/
theorem Run.inv [Inhabited Obj] (h : Run c live now) : ∃ order, Inv c live now order := by
  induction h with
  | create =>
    refine ⟨[], ⟨⟨rfl, rfl, List.nodup_nil⟩, ?_, ?_, List.Pairwise.nil⟩, ?_, List.nodup_nil, ?_, ?_, ?_⟩
    · intro id
      simp
    · intro id obj tick hlive
      exact nomatch hlive
    · intro id hlive
      exact absurd rfl hlive
    · intro id hid
      exact nomatch hid
    · intro id hid
      exact nomatch hid
    · intro id obj tick hlive; exact nomatch hlive
  | insert obj _ hnow ih =>
    obtain ⟨order, hinv⟩ := ih; exact ⟨_, hinv.insert obj hnow⟩
  | @touch c live now id obj old tick _ hnow hlive ih =>
    obtain ⟨order, hinv⟩ := ih
    by_cases hold : old ≥ tick
    · have hsame : update live id (some (obj, old)) = live :=
        update_eq_self_iff.2 hlive.symm
      rw [if_pos hold, hsame, LruCache.touch, if_pos (by rw [hinv.tick_eq hlive]; exact hold)]
      exact ⟨order, hinv.later hnow⟩
    · have hid : id ∈ order := (hinv.mem id).2 (by rw [hlive]; exact Option.some_ne_none _)
      obtain ⟨l₁, l₂, rfl⟩ := List.append_of_mem hid
      rw [if_neg hold]; exact ⟨_, hinv.touch hlive hnow hold⟩
  | @free c live now id _ hlive ih =>
    obtain ⟨order, hinv⟩ := ih
    obtain ⟨l₁, l₂, rfl⟩ := List.append_of_mem ((hinv.mem id).2 hlive)
    exact ⟨_, hinv.free⟩
  | forEach tick func _ ih =>
    obtain ⟨order, hinv⟩ := ih; exact (hinv.forEachItemBelow tick func).2

end Iteration

/-! ## Which calls are made -/

section Calls

variable {c : LruCache Obj} {live : Live Obj} {now tick t : BitVec 64} {func : Callback Obj}
  {order ids called : List Nat} {id : Nat}

theorem reached_iff : c.reached tick id = true ↔ (tick - (c.itemPool id).tick).toNat < 2 ^ 63 := by
  rw [reached, Bool.not_eq_true', decide_eq_false_iff_not, BitVec.toInt_neg_iff]; omega

theorem reached_iff_of_below (h : (c.itemPool id).tick ≤ tick) :
    c.reached tick id = true ↔ tick.toNat - (c.itemPool id).tick.toNat < 2 ^ 63 := by
  rw [reached_iff, BitVec.toNat_sub_of_le h]

/-- Above the tick the difference wraps: an item more than `2^63` above it is reached. -/
theorem reached_iff_of_above (h : tick < (c.itemPool id).tick) :
    c.reached tick id = true ↔ 2 ^ 63 < (c.itemPool id).tick.toNat - tick.toNat := by
  rw [reached_iff]
  bv_omega

theorem Orderly.itemsBelow_eq (h : Orderly c live order) :
    itemsBelow c order tick = order.takeWhile fun id => decide ((c.itemPool id).tick ≤ tick) := by
  refine (Lib.ChangePoints.takeWhile_eq_filter (h.sorted.imp fun {i j} hij hj => ?_)).symm
  exact decide_eq_true (BitVec.le_trans hij (of_decide_eq_true hj))

theorem Orderly.exists_live (h : Orderly c live order) (hid : id ∈ order) :
    ∃ obj, live id = some (obj, (c.itemPool id).tick) := by
  obtain ⟨⟨obj, t⟩, hlive⟩ := Option.ne_none_iff_exists'.1 ((h.mem id).1 hid)
  rw [h.tick_eq hlive]
  exact ⟨obj, hlive⟩

theorem Orderly.mem_of_live (h : Orderly c live order) {obj : Obj} (hlive : live id = some (obj, t)) :
    id ∈ order :=
  (h.mem id).2 (by rw [hlive]; exact Option.some_ne_none _)

/-- The items come by their ticks: in front of an item are only such that are not later. -/
theorem Orderly.tick_le_of_split (h : Orderly c live order) {l₁ l₂ : List Nat} {id₀ : Nat}
    (heq : order = l₁ ++ id :: l₂) (hid₀ : id₀ ∈ id :: l₂) : (c.itemPool id).tick ≤ (c.itemPool id₀).tick := by
  have hsorted := h.sorted
  rw [heq] at hsorted
  rcases List.mem_cons.1 hid₀ with rfl | hmem
  · exact BitVec.le_refl _
  · exact (List.pairwise_cons.1 (List.pairwise_append.1 hsorted).2.1).1 id₀ hmem

theorem Orderly.takeWhile_reached (h : Orderly c live order) (hnear : Near live tick) :
    order.takeWhile (c.reached tick) = itemsBelow c order tick := by
  rw [h.itemsBelow_eq]
  refine Lib.ChangePoints.takeWhile_congr_first ?_ ?_
  · intro id hid hle
    obtain ⟨obj, hlive⟩ := h.exists_live hid
    have hle' := of_decide_eq_true hle
    exact (reached_iff_of_below hle').2 (hnear.below id obj _ hlive hle')
  · -- the first item above the tick is not later than the one that is near
    intro l₁ id l₂ heq hall hnle hreached
    have hgt : tick < (c.itemPool id).tick := by
      rw [← BitVec.not_le]; exact fun hle => hnle (decide_eq_true hle)
    have hid : id ∈ order := by
      rw [heq]; simp
    obtain ⟨obj, hlive⟩ := h.exists_live hid
    obtain ⟨id₀, obj₀, t₀, hlive₀, hgt₀, hclose⟩ := hnear.above id obj _ hlive hgt
    have htick₀ := h.tick_eq hlive₀
    have hmem : id₀ ∈ id :: l₂ := by
      rcases List.mem_append.1 (heq ▸ h.mem_of_live hlive₀) with hmem | hmem
      · have hle := of_decide_eq_true (hall id₀ hmem)
        rw [htick₀] at hle
        exact absurd hle (BitVec.not_le.2 hgt₀)
      · exact hmem
    have hle₀ := h.tick_le_of_split heq hmem
    rw [htick₀] at hle₀
    have hfar := (reached_iff_of_above hgt).1 hreached
    bv_omega

theorem callsUntilTrue_eq_self_iff :
    callsUntilTrue c func called ids = ids ↔ OnlyLastTrue c func called ids := by
  induction ids generalizing called with
  | nil => exact ⟨fun _ => trivial, fun _ => rfl⟩
  | cons id ids ih =>
    rw [callsUntilTrue, OnlyLastTrue]
    by_cases hstop : func.result = .bool ∧ (func.call called id (c.itemPool id).obj).returned = true
    · rw [if_pos hstop, List.cons.injEq]
      constructor
      · intro h
        rw [← h.2]
        exact ⟨Or.inl rfl, trivial⟩
      · intro h; exact ⟨rfl, (h.1.resolve_right fun hn => hn hstop).symm⟩
    · rw [if_neg hstop, List.cons.injEq, ih]
      constructor
      · intro h
        exact ⟨Or.inr hstop, h.2⟩
      · intro h; exact ⟨rfl, h.2⟩

theorem callsUntilTrue_subset : callsUntilTrue c func called ids ⊆ ids := by
  induction ids generalizing called with
  | nil => exact List.Subset.refl _
  | cons id ids ih =>
    rw [callsUntilTrue]
    split
    · exact List.cons_subset_cons id (List.nil_subset ids)
    · exact List.cons_subset_cons id ih

theorem callsUntilTrue_ne_nil (h : ids ≠ []) : callsUntilTrue c func called ids ≠ [] := by
  cases ids with
  | nil => exact absurd rfl h
  | cons id ids =>
    rw [callsUntilTrue]
    split
    · exact List.cons_ne_nil _ _
    · exact List.cons_ne_nil _ _

theorem Orderly.takeWhile_reached_ne (h : Orderly c live order) (hnear : ¬ Near live tick) :
    order.takeWhile (c.reached tick) ≠ callsUntilTrue c func [] (itemsBelow c order tick) := by
  by_cases hbelow : ∀ id obj t, live id = some (obj, t) → t ≤ tick → tick.toNat - t.toNat < 2 ^ 63
  · -- every item is reached, and one of them is above the tick
    have habove : ¬ ∀ id obj t, live id = some (obj, t) → tick < t →
        ∃ id₀ obj₀ t₀, live id₀ = some (obj₀, t₀) ∧ tick < t₀ ∧ t₀.toNat - tick.toNat ≤ 2 ^ 63 :=
      fun habove => hnear ⟨hbelow, habove⟩
    push Not at habove
    obtain ⟨id₁, obj₁, t₁, hlive₁, hgt₁, hfar⟩ := habove
    have hall : ∀ id ∈ order, c.reached tick id = true := by
      intro id hid
      obtain ⟨obj, hlive⟩ := h.exists_live hid
      by_cases hle : (c.itemPool id).tick ≤ tick
      · exact (reached_iff_of_below hle).2 (hbelow id obj _ hlive hle)
      · have hgt := BitVec.not_le.1 hle
        exact (reached_iff_of_above hgt).2 (hfar id obj _ hlive hgt)
    rw [List.takeWhile_eq_self_iff.2 hall]
    intro heq
    have hmem : id₁ ∈ itemsBelow c order tick := callsUntilTrue_subset (heq ▸ h.mem_of_live hlive₁)
    have hle := of_decide_eq_true (List.mem_filter.1 hmem).2
    rw [h.tick_eq hlive₁] at hle
    exact BitVec.not_le.2 hgt₁ hle
  · -- the first item is the farthest below, and it is not reached
    push Not at hbelow
    obtain ⟨id₀, obj₀, t₀, hlive₀, hle₀, hfar⟩ := hbelow
    have htick₀ := h.tick_eq hlive₀
    have hmem := h.mem_of_live hlive₀
    have hstop : order.takeWhile (c.reached tick) = [] := by
      cases order with
      | nil => rfl
      | cons first order =>
        have hfirst := h.tick_le_of_split (List.nil_append (first :: order)).symm hmem
        rw [htick₀] at hfirst
        refine List.takeWhile_cons_of_neg ?_
        rw [reached_iff]
        bv_omega
    rw [hstop]
    refine (callsUntilTrue_ne_nil (List.ne_nil_of_mem (List.mem_filter.2 ⟨hmem, decide_eq_true ?_⟩))).symm
    rwa [htick₀]

end Calls

/-! ## Result -/

variable [Inhabited Obj]

/-- IN EVERY RUN the list holds exactly the live items by tick, a new id is that of no live item, and a
call of `ForEachItemBelow` calls the function as it should exactly if the ticks are near enough for the
sign of their difference and only the last of these calls may return true. -/
theorem lruCache_exact {c : LruCache Obj} {live : Live Obj} {now : BitVec 64} (h : Run c live now) :
    ∃ order, Orderly c live order ∧ (∀ obj tick, live (c.insert obj tick).1 = none) ∧
      ∀ tick func, CallsRight c order tick func ↔
        Near live tick ∧ OnlyLastTrue c func [] (itemsBelow c order tick) := by
  obtain ⟨order, hinv⟩ := h.inv
  refine ⟨order, hinv.toOrderly, hinv.insert_fresh, fun tick func => ?_⟩
  rw [CallsRight, (hinv.forEachItemBelow tick func).1]
  by_cases hnear : Near live tick
  · rw [hinv.toOrderly.takeWhile_reached hnear, eq_comm, callsUntilTrue_eq_self_iff]
    exact (and_iff_right hnear).symm
  · constructor
    · intro hcalls
      exact absurd hcalls (hinv.toOrderly.takeWhile_reached_ne hnear)
    · intro hright; exact absurd hright.1 hnear

/-- Two items, of which the first is used again: the other one is before it now. -/
def twoItems : LruCache Nat := ((create.insert 10 1).2.insert 20 2).2.touch 0 3

def twoItemsLive : Live Nat :=
  update (update (update (fun _ => none) 0 (some (10, 1))) 1 (some (20, 2))) 0 (some (10, 3))

theorem run_twoItems : Run twoItems twoItemsLive 3 := by
  have hfirst : Run (create.insert 10 1).2 (update (fun _ => none) 0 (some (10, 1))) 1 :=
    Run.create.insert 10 (by decide)
  have hsecond : Run ((create.insert 10 1).2.insert 20 2).2
      (update (update (fun _ => none) 0 (some (10, 1))) 1 (some (20, 2))) 2 :=
    hfirst.insert 20 (by decide)
  exact hsecond.touch (by decide) (show _ = some (10, 1) from rfl)

/-- A function that returns true at once. -/
def stopAtOnce : Callback Nat := ⟨.bool, fun _ _ _ => ⟨false, true⟩⟩

theorem lruCache_exact_twoItems : ∃ order, Orderly twoItems twoItemsLive order ∧
    (CallsRight twoItems order 2 stopAtOnce ↔
      Near twoItemsLive 2 ∧ OnlyLastTrue twoItems stopAtOnce [] (itemsBelow twoItems order 2)) := by
  obtain ⟨order, horder, _, hcalls⟩ := lruCache_exact run_twoItems
  exact ⟨order, horder, hcalls 2 stopAtOnce⟩

/-- The function returns true at the first item and is called with the second. -/
theorem lruCache_ignores_stop : Run twoItems twoItemsLive 3 ∧ Orderly twoItems twoItemsLive [1, 0] ∧
    (twoItems.forEachItemBelow 3 stopAtOnce).1 = [1, 0] ∧
    callsUntilTrue twoItems stopAtOnce [] (itemsBelow twoItems [1, 0] 3) = [1] := by
  refine ⟨run_twoItems, ⟨⟨⟨rfl, rfl, rfl⟩, ⟨rfl, rfl, rfl⟩, by decide⟩, ?_, ?_, by decide⟩,
      by decide, by decide⟩
  · intro id
    match id with
    | 0 => decide
    | 1 => decide
    | id + 2 => simp [twoItemsLive]
  · intro id obj tick hlive
    match id with
    | 0 =>
      cases hlive
      exact ⟨rfl, rfl⟩
    | 1 =>
      cases hlive
      exact ⟨rfl, rfl⟩
    | id + 2 => simp [twoItemsLive] at hlive

end LruCache

end Suyu.Common
