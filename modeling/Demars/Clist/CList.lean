import Mathlib.Data.List.Nodup
import Demars.Lib.Linked

/-!
# The concurrent linked list

`libs/clist/clist.go`: a doubly linked list that goroutines can walk along while elements are added and removed.
Elements have wait groups and channels that are done once there is a neighbour; to be done twice is a panic, as are
the checks of `remove` and `detachPrev`.
-/

namespace Demars

open List Option

/-- `CElement`. The wait group and the channel of a direction are done together. -/
structure CElement (α : Type) where
  prev : Option Nat
  prevDone : Bool
  next : Option Nat
  nextDone : Bool
  removed : Bool
  value : α

/-- `CList`, with all elements that have been made, which are addressed by their number. -/
structure CList (α : Type) where
  elements : List (CElement α)
  head : Option Nat
  tail : Option Nat
  len : Nat
  waitDone : Bool

namespace CList

variable {α : Type}

def new : CList α := ⟨[], none, none, 0, false⟩

section

variable (l : CList α) (e : Nat)

def next : Option Nat := l.elements[e]?.bind CElement.next

def prev : Option Nat := l.elements[e]?.bind CElement.prev

def value : Option α := l.elements[e]?.map CElement.value

def modify (f : CElement α → CElement α) : CList α := { l with elements := l.elements.modify e f }

def setNext (newNext : Option Nat) : Option (CList α) := do
  let x ← l.elements[e]?
  match x.next, newNext with
  | some _, none => some (l.modify e ({ · with next := none, nextDone := false }))
  | none, some n => if x.nextDone then none else some (l.modify e ({ · with next := some n, nextDone := true }))
  | _, _ => some (l.modify e ({ · with next := newNext }))

def setPrev (newPrev : Option Nat) : Option (CList α) := do
  let x ← l.elements[e]?
  match x.prev, newPrev with
  | some _, none => some (l.modify e ({ · with prev := none, prevDone := false }))
  | none, some n => if x.prevDone then none else some (l.modify e ({ · with prev := some n, prevDone := true }))
  | _, _ => some (l.modify e ({ · with prev := newPrev }))

def setRemoved : Option (CList α) := do
  let x ← l.elements[e]?
  if x.prev.isNone ∧ x.prevDone ∨ x.next.isNone ∧ x.nextDone then none
  else some (l.modify e fun x =>
    { x with removed := true, prevDone := x.prevDone || x.prev.isNone, nextDone := x.nextDone || x.next.isNone })

def detachPrev : Option (CList α) := do
  let x ← l.elements[e]?
  if x.removed then some (l.modify e ({ · with prev := none })) else none

end

def pushBack (l : CList α) (v : α) : Option (CList α) := do
  let e := l.elements.length
  if l.len = 0 ∧ l.waitDone then none
  else
    let l₁ : CList α :=
      { l with
        elements := l.elements ++ [⟨none, false, none, false, false, v⟩]
        waitDone := l.waitDone || l.len = 0
        len := l.len + 1 }
    match l.tail with
    | none => some { l₁ with head := some e, tail := some e }
    | some t =>
      let l₂ ← l₁.setPrev e (some t)
      let l₃ ← l₂.setNext t (some e)
      some { l₃ with tail := some e }

/-- The one before a removed element, or the head, is connected with the one after it. -/
def connectNext (l : CList α) (prev next : Option Nat) : Option (CList α) :=
  match prev with
  | none => some { l with head := next }
  | some p => l.setNext p next

/-- The one after a removed element, or the tail, is connected with the one before it. -/
def connectPrev (l : CList α) (prev next : Option Nat) : Option (CList α) :=
  match next with
  | none => some { l with tail := prev }
  | some n => l.setPrev n prev

def remove (l : CList α) (e : Nat) : Option (CList α) := do
  let x ← l.elements[e]?
  if l.head.isNone ∨ l.tail.isNone then none
  else if x.prev.isNone ∧ l.head ≠ some e then none
  else if x.next.isNone ∧ l.tail ≠ some e then none
  else
    let l₁ : CList α := { l with waitDone := if l.len = 1 then false else l.waitDone, len := l.len - 1 }
    let l₂ ← l₁.connectNext x.prev x.next
    let l₃ ← l₂.connectPrev x.prev x.next
    l₃.setRemoved e

/-! ## Single elements -/

def put (l : CList α) (e : Nat) (x : CElement α) : CList α := { l with elements := l.elements.set e x }

variable {l : CList α} {e : Nat} {x : CElement α}

theorem modify_eq_put (hx : l.elements[e]? = some x) (f : CElement α → CElement α) : l.modify e f = l.put e (f x) := by
  rw [modify]
  congr 1
  refine ext_getElem? fun i => ?_
  obtain ⟨hlt, hget⟩ := List.getElem?_eq_some_iff.1 hx
  rw [getElem?_set, if_pos hlt]
  by_cases hi : e = i
  · subst hi
    simp [hx]
  · simp [hi]

theorem getElem?_put (hx : l.elements[e]? = some x) (x' : CElement α) (i : Nat) :
    (l.put e x').elements[i]? = if e = i then some x' else l.elements[i]? := by
  obtain ⟨hlt, -⟩ := List.getElem?_eq_some_iff.1 hx
  rw [put, getElem?_set, if_pos hlt]

theorem getElem?_put_map (hx : l.elements[e]? = some x) (f : CElement α → CElement α) (i : Nat) :
    (l.put e (f x)).elements[i]? = if some e = some i then l.elements[i]?.map f else l.elements[i]? := by
  rw [getElem?_put hx]
  by_cases hi : e = i
  · subst hi
    rw [if_pos rfl, if_pos rfl, hx, map_some]
  · rw [if_neg hi, if_neg (by simpa using hi)]

/-- An element whose wait groups are done for the neighbours that it has. -/
def Awaited (x : CElement α) : Prop := x.prevDone = x.prev.isSome ∧ x.nextDone = x.next.isSome

/-- Where the wait group is done for the old neighbour, a new one is set without a panic. -/
theorem redirect_eq {β : Type} (old n : Option Nat) (done : Bool) (set : Option Nat → Bool → β) : done = old.isSome →
    (match old, n with
      | some _, none => some (set none false)
      | none, some n => if done then none else some (set (some n) true)
      | _, _ => some (set n done)) = some (set n n.isSome) := by
  rintro rfl
  cases old <;> cases n <;> rfl

theorem setNext_eq (hx : l.elements[e]? = some x) (hawaited : Awaited x) (n : Option Nat) :
    l.setNext e n = some (l.put e { x with next := n, nextDone := n.isSome }) := by
  simp only [setNext, hx, modify_eq_put hx]
  exact redirect_eq _ _ _ (fun n done => l.put e { x with next := n, nextDone := done }) hawaited.2

theorem setPrev_eq (hx : l.elements[e]? = some x) (hawaited : Awaited x) (n : Option Nat) :
    l.setPrev e n = some (l.put e { x with prev := n, prevDone := n.isSome }) := by
  simp only [setPrev, hx, modify_eq_put hx]
  exact redirect_eq _ _ _ (fun n done => l.put e { x with prev := n, prevDone := done }) hawaited.1

theorem setRemoved_eq (hx : l.elements[e]? = some x) (hawaited : Awaited x) :
    l.setRemoved e = some (l.put e { x with removed := true, prevDone := true, nextDone := true }) := by
  obtain ⟨hprev, hnext⟩ := hawaited
  rw [setRemoved, hx]
  dsimp only [bind_eq_bind, bind_some]
  rw [if_neg, modify_eq_put hx]
  · rw [hprev, hnext]
    cases x.prev <;> cases x.next <;> rfl
  · rw [hprev, hnext]
    cases x.prev <;> cases x.next <;> simp

/-! ## The list -/

/-- The list links the elements `ids` in this order. -/
structure Represents (l : CList α) (ids : List Nat) : Prop where
  nodup : ids.Nodup
  awaited : ∀ e ∈ ids, ∃ x, l.elements[e]? = some x ∧ Awaited x
  segment : Linked.Segment l.next l.prev none ids none
  head : l.head = ids.head?
  tail : l.tail = ids.getLast?
  len : l.len = ids.length
  waitDone : l.waitDone = !ids.isEmpty

theorem represents_new : (new : CList α).Represents [] where
  nodup := nodup_nil
  awaited _ he := absurd he not_mem_nil
  segment := trivial
  head := rfl
  tail := rfl
  len := rfl
  waitDone := rfl

theorem next_eq (hx : l.elements[e]? = some x) : l.next e = x.next := by rw [next, hx, bind_some]

theorem prev_eq (hx : l.elements[e]? = some x) : l.prev e = x.prev := by rw [prev, hx, bind_some]

theorem value_eq (hx : l.elements[e]? = some x) : l.value e = some x.value := by rw [value, hx, map_some]

variable {ids pre post : List Nat}

/-- Only the elements in the list matter, not the ones that have been removed. -/
theorem Represents.congr {l' : CList α} (h : l.Represents ids)
    (helements : ∀ i ∈ ids, l'.elements[i]? = l.elements[i]?) (hhead : l'.head = l.head) (htail : l'.tail = l.tail)
    (hlen : l'.len = l.len) (hwait : l'.waitDone = l.waitDone) : l'.Represents ids where
  nodup := h.nodup
  awaited e he := by
    rw [helements e he]
    exact h.awaited e he
  segment := by
    refine h.segment.congr (fun i hi => ?_) fun i hi => ?_
    · rw [next, next, helements i hi]
    · rw [prev, prev, helements i hi]
  head := hhead.trans h.head
  tail := htail.trans h.tail
  len := hlen.trans h.len
  waitDone := hwait.trans h.waitDone

theorem Represents.pointers (h : l.Represents (pre ++ e :: post)) :
    ∃ x, l.elements[e]? = some x ∧ Awaited x ∧ x.prev = pre.getLast? ∧ x.next = post.head? := by
  obtain ⟨x, hx, hawaited⟩ := h.awaited e (mem_append_right _ mem_cons_self)
  obtain ⟨hprev, hnext⟩ := h.segment.pointers
  exact ⟨x, hx, hawaited, by rw [← prev_eq hx, hprev], by rw [← next_eq hx, hnext]⟩

theorem Represents.next_eq_head? (h : l.Represents (pre ++ e :: post)) : l.next e = post.head? :=
  h.segment.pointers.2

theorem connectNext_spec {p n : Option Nat} (h : ∀ i, p = some i → ∃ y, l.elements[i]? = some y ∧ Awaited y) :
    ∃ l', l.connectNext p n = some l' ∧
      l'.head = (if p.isNone then n else l.head) ∧ l'.tail = l.tail ∧ l'.len = l.len ∧ l'.waitDone = l.waitDone ∧
      ∀ i, l'.elements[i]? =
        if p = some i then l.elements[i]?.map ({ · with next := n, nextDone := n.isSome }) else l.elements[i]? := by
  cases p with
  | none => exact ⟨{ l with head := n }, rfl, rfl, rfl, rfl, rfl, fun i => (if_neg nofun).symm⟩
  | some p =>
    obtain ⟨y, hy, hawaited⟩ := h p rfl
    exact ⟨_, setNext_eq hy hawaited n, rfl, rfl, rfl, rfl,
      getElem?_put_map hy ({ · with next := n, nextDone := n.isSome })⟩

theorem connectPrev_spec {p n : Option Nat} (h : ∀ i, n = some i → ∃ y, l.elements[i]? = some y ∧ Awaited y) :
    ∃ l', l.connectPrev p n = some l' ∧
      l'.head = l.head ∧ l'.tail = (if n.isNone then p else l.tail) ∧ l'.len = l.len ∧ l'.waitDone = l.waitDone ∧
      ∀ i, l'.elements[i]? =
        if n = some i then l.elements[i]?.map ({ · with prev := p, prevDone := p.isSome }) else l.elements[i]? := by
  cases n with
  | none => exact ⟨{ l with tail := p }, rfl, rfl, rfl, rfl, rfl, fun i => (if_neg nofun).symm⟩
  | some n =>
    obtain ⟨y, hy, hawaited⟩ := h n rfl
    exact ⟨_, setPrev_eq hy hawaited p, rfl, rfl, rfl, rfl,
      getElem?_put_map hy ({ · with prev := p, prevDone := p.isSome })⟩

/-- An element after another one is unlinked: it changes if that one pointed to it. -/
def unlinked (x : CElement α) (i : Nat) (y : CElement α) : CElement α where
  prev := if x.next = some i then x.prev else y.prev
  prevDone := if x.next = some i then x.prev.isSome else y.prevDone
  next := if x.prev = some i then x.next else y.next
  nextDone := if x.prev = some i then x.next.isSome else y.nextDone
  removed := y.removed
  value := y.value

theorem Awaited.unlinked {y : CElement α} (h : Awaited y) (x : CElement α) (i : Nat) : Awaited (unlinked x i y) := by
  refine ⟨?_, ?_⟩
  · rw [CList.unlinked]
    dsimp only
    rw [h.1]
    split <;> rfl
  · rw [CList.unlinked]
    dsimp only
    rw [h.2]
    split <;> rfl

/-- `Remove` of an element in the list. The element keeps its pointer to the next one. -/
theorem remove_spec (h : l.Represents (pre ++ e :: post)) :
    ∃ l', l.remove e = some l' ∧ l'.Represents (pre ++ post) ∧ l'.next e = post.head? ∧
      (∃ x', l'.elements[e]? = some x' ∧ x'.removed = true) ∧ ∀ i, l'.value i = l.value i := by
  obtain ⟨x, hx, hawaited, hprev, hnext⟩ := h.pointers
  obtain ⟨he, hnodup⟩ := nodup_cons.1 (nodup_middle.1 h.nodup)
  have hawaited' : ∀ i ∈ pre ++ post, ∃ y, l.elements[i]? = some y ∧ Awaited y := fun i hi =>
    h.awaited i (perm_middle.mem_iff.2 (mem_cons_of_mem e hi))
  have hpre : ∀ i, x.prev = some i → i ∈ pre := fun i hi => mem_of_getLast? (hprev ▸ hi)
  have hpost : ∀ i, x.next = some i → i ∈ post := fun i hi => mem_of_head? (hnext ▸ hi)
  -- the neighbours of the element
  let l₁ : CList α := { l with waitDone := if l.len = 1 then false else l.waitDone, len := l.len - 1 }
  obtain ⟨l₂, hl₂, hhead₂, htail₂, hlen₂, hwait₂, hget₂⟩ := connectNext_spec (l := l₁) (p := x.prev) (n := x.next)
    (fun i hi => hawaited' i (mem_append_left _ (hpre i hi)))
  have hget₂' : ∀ i ∈ post, l₂.elements[i]? = l.elements[i]? := by
    intro i hi
    rw [hget₂, if_neg]
    exact fun hp => (nodup_append.1 hnodup).2.2 i (hpre i hp) i hi rfl
  obtain ⟨l₃, hl₃, hhead₃, htail₃, hlen₃, hwait₃, hget₃⟩ := connectPrev_spec (l := l₂) (p := x.prev) (n := x.next)
    (fun i hi => by rw [hget₂' i (hpost i hi)]; exact hawaited' i (mem_append_right _ (hpost i hi)))
  have hget : ∀ i, l₃.elements[i]? = l.elements[i]?.map (unlinked x i) := by
    intro i
    rw [hget₃, hget₂]
    cases l.elements[i]? with
    | none => simp
    | some y =>
      simp only [map_some, unlinked]
      split_ifs <;> rfl
  have hx₃ : l₃.elements[e]? = some x := by
    rw [hget, hx, map_some]
    simp only [unlinked, if_neg fun hp => he (mem_append_left _ (hpre e hp)), if_neg fun hn =>
      he (mem_append_right _ (hpost e hn))]
  -- the list with the element out of it
  have hput := getElem?_put hx₃ { x with removed := true, prevDone := true, nextDone := true }
  have hother : ∀ i ∈ pre ++ post,
    (l₃.put e { x with removed := true, prevDone := true, nextDone := true }).elements[i]? =
      l.elements[i]?.map (unlinked x i) := by
    intro i hi
    rw [hput, if_neg (fun heq : e = i => he (heq ▸ hi)), hget]
  refine ⟨l₃.put e { x with removed := true, prevDone := true, nextDone := true }, ?_, ?_, ?_, ?_, ?_⟩
  · have hhead := h.head
    have htail := h.tail
    rw [remove, hx]
    dsimp only [bind_eq_bind, bind_some]
    rw [if_neg (by rw [hhead, htail]; simp), if_neg, if_neg]
    · rw [hl₂, bind_some, hl₃, bind_some, setRemoved_eq hx₃ hawaited]
    · rw [hnext, htail]
      cases post <;> simp
    · rw [hprev, hhead]
      rcases pre.eq_nil_or_concat with rfl | ⟨pre, i, rfl⟩ <;> simp
  · refine ⟨hnodup, fun i hi => ?_, h.segment.unlink h.nodup (fun i hi => ?_) fun i hi => ?_, ?_, ?_, ?_, ?_⟩
    · obtain ⟨y, hy, hyawaited⟩ := hawaited' i hi
      exact ⟨unlinked x i y, by rw [hother i hi, hy, map_some], hyawaited.unlinked x i⟩
    · obtain ⟨y, hy, -⟩ := hawaited' i hi
      rw [next, hother i hi, hy, next_eq hy, ← hprev, ← hnext]
      rfl
    · obtain ⟨y, hy, -⟩ := hawaited' i hi
      rw [prev, hother i hi, hy, prev_eq hy, ← hprev, ← hnext]
      rfl
    · change l₃.head = _
      rw [hhead₃, hhead₂, hprev, hnext]
      rw [h.head]
      cases pre <;> simp
    · change l₃.tail = _
      rw [htail₃, htail₂, hprev, hnext]
      rw [h.tail]
      cases post <;> simp
    · change l₃.len = _
      rw [hlen₃, hlen₂]
      change l.len - 1 = _
      rw [h.len]
      simp
    · change l₃.waitDone = _
      rw [hwait₃, hwait₂]
      change (if l.len = 1 then false else l.waitDone) = _
      rw [h.len, h.waitDone]
      cases pre <;> cases post <;> simp
  · rw [next_eq (hput e ▸ if_pos rfl)]
    exact hnext
  · exact ⟨_, hput e ▸ if_pos rfl, rfl⟩
  · intro i
    rw [value, value, hput]
    split
    · next heq =>
      subst heq
      rw [hx]
      rfl
    · rw [hget]
      cases l.elements[i]? <;> rfl

theorem detachPrev_spec (h : l.Represents ids) (he : e ∉ ids) (hx : l.elements[e]? = some x)
    (hremoved : x.removed = true) :
    ∃ l', l.detachPrev e = some l' ∧ l'.Represents ids ∧ l'.next e = l.next e ∧ ∀ i, l'.value i = l.value i := by
  have hget := getElem?_put hx { x with prev := none }
  refine ⟨l.put e { x with prev := none }, ?_, ?_, ?_, ?_⟩
  · rw [detachPrev, hx]
    dsimp only [bind_eq_bind, bind_some]
    rw [if_pos hremoved, modify_eq_put hx]
  · refine h.congr (fun i hi => ?_) rfl rfl rfl rfl
    rw [hget, if_neg (fun heq : e = i => he (heq ▸ hi))]
  · rw [next_eq (hget e ▸ if_pos rfl), next_eq hx]
  · intro i
    rw [value, value, hget]
    split
    · next heq =>
      subst heq
      rw [hx]
      rfl
    · rfl

theorem remove_detachPrev_spec (h : l.Represents (pre ++ e :: post)) :
    ∃ l', ((l.remove e).bind (·.detachPrev e)) = some l' ∧ l'.Represents (pre ++ post) ∧ l'.next e = post.head? ∧
      ∀ i, l'.value i = l.value i := by
  obtain ⟨l₁, hremove, hl₁, hnext₁, ⟨x, hx, hremoved⟩, hvalue₁⟩ := remove_spec h
  have he : e ∉ pre ++ post := (nodup_middle.1 h.nodup).notMem
  obtain ⟨l₂, hdetach, hl₂, hnext₂, hvalue₂⟩ := detachPrev_spec hl₁ he hx hremoved
  refine ⟨l₂, ?_, hl₂, hnext₂.trans hnext₁, fun i => (hvalue₂ i).trans (hvalue₁ i)⟩
  rw [hremove, bind_some, hdetach]

def append (l : CList α) (v : α) : CList α :=
  { l with
    elements := l.elements ++ [⟨none, false, none, false, false, v⟩]
    waitDone := l.waitDone || l.len = 0
    len := l.len + 1 }

/-- `PushBack` connects the new element with the last one or the head. -/
theorem Represents.pushBack_eq (h : l.Represents ids) (v : α) : l.pushBack v =
    ((l.append v).connectPrev l.tail (some l.elements.length)).bind fun l₂ =>
      (l₂.connectNext l.tail (some l.elements.length)).map ({ · with tail := some l.elements.length }) := by
  have hnew : (l.append v).elements[l.elements.length]? = some ⟨none, false, none, false, false, v⟩ :=
    getElem?_concat_length
  rw [pushBack, if_neg]
  · change (match l.tail with
      | none => some { l.append v with head := some l.elements.length, tail := some l.elements.length }
      | some t => ((l.append v).setPrev l.elements.length (some t)).bind fun l₂ =>
          (l₂.setNext t (some l.elements.length)).bind fun l₃ => some { l₃ with tail := some l.elements.length }) = _
    cases l.tail with
    | none =>
      have hsame : (l.append v).setPrev l.elements.length none = some (l.append v) := by
        rw [setPrev_eq hnew ⟨rfl, rfl⟩, put]
        simp [append]
      dsimp only [connectPrev]
      rw [hsame]
      rfl
    | some t => exact congrArg (Option.bind _) (funext fun l₂ => map_eq_bind.symm)
  · rw [h.len, h.waitDone]
    cases ids <;> simp

theorem pushBack_spec (h : l.Represents ids) (v : α) :
    ∃ l', l.pushBack v = some l' ∧ l'.Represents (ids ++ [l.elements.length]) ∧ l'.value l.elements.length = some v ∧
      ∀ i ∈ ids, l'.value i = l.value i := by
  have hlt : ∀ i ∈ ids, i < l.elements.length := by
    intro i hi
    obtain ⟨y, hy, -⟩ := h.awaited i hi
    exact (List.getElem?_eq_some_iff.1 hy).1
  have hfresh : l.elements.length ∉ ids := fun hi => Nat.lt_irrefl _ (hlt _ hi)
  have hlast : ∀ i, l.tail = some i → i ∈ ids := fun i hi => mem_of_getLast? (h.tail ▸ hi)
  obtain ⟨l₂, hl₂, hhead₂, -, hlen₂, hwait₂, hget₂⟩ := connectPrev_spec (l := l.append v) (p := l.tail)
    (n := some l.elements.length) fun i hi => ⟨_, Option.some.inj hi ▸ getElem?_concat_length, rfl, rfl⟩
  have hold₂ : ∀ i ∈ ids, l₂.elements[i]? = l.elements[i]? := by
    intro i hi
    rw [hget₂, if_neg (fun heq : some l.elements.length = some i => hfresh (Option.some.inj heq ▸ hi))]
    exact getElem?_append_left (hlt i hi)
  obtain ⟨l₃, hl₃, hhead₃, -, hlen₃, hwait₃, hget₃⟩ := connectNext_spec
    (l := l₂) (p := l.tail) (n := some l.elements.length)
    fun i hi => by rw [hold₂ i (hlast i hi)]; exact h.awaited i (hlast i hi)
  let l₄ : CList α := { l₃ with tail := some l.elements.length }
  have hnew : l₄.elements[l.elements.length]? = some ⟨l.tail, l.tail.isSome, none, false, false, v⟩ := by
    rw [hget₃, if_neg (fun ht => hfresh (hlast _ ht)), hget₂, if_pos rfl, append, getElem?_concat_length]
    rfl
  have hold : ∀ i ∈ ids, ∃ y, l.elements[i]? = some y ∧ Awaited y ∧ l₄.elements[i]? =
      some (if l.tail = some i then { y with next := some l.elements.length, nextDone := true } else y) := by
    intro i hi
    obtain ⟨y, hy, hyawaited⟩ := h.awaited i hi
    refine ⟨y, hy, hyawaited, ?_⟩
    rw [hget₃, hold₂ i hi, hy]
    split_ifs <;> rfl
  refine ⟨l₄, ?_, ⟨?_, fun i hi => ?_, ?_, ?_, ?_, ?_, ?_⟩, value_eq hnew, fun i hi => ?_⟩
  · rw [h.pushBack_eq, hl₂, bind_some, hl₃]
    rfl
  · exact nodup_append.2 ⟨h.nodup, nodup_singleton _, fun i hi j hj heq => hfresh (mem_singleton.1 hj ▸ heq ▸ hi)⟩
  · rcases mem_append.1 hi with hi | hi
    · obtain ⟨y, -, hyawaited, hget⟩ := hold i hi
      refine ⟨_, hget, ?_⟩
      split_ifs
      · exact ⟨hyawaited.1, rfl⟩
      · exact hyawaited
    · rw [mem_singleton.1 hi]
      exact ⟨_, hnew, rfl, rfl⟩
  · refine h.segment.link h.nodup (next_eq hnew) (by rw [← h.tail]; exact prev_eq hnew) (fun i hi => ?_) fun i hi => ?_
    · obtain ⟨y, hy, -, hget⟩ := hold i hi
      rw [next_eq hget, next_eq hy, ← h.tail]
      split_ifs <;> rfl
    · obtain ⟨y, hy, -, hget⟩ := hold i hi
      rw [prev_eq hget, prev_eq hy]
      split_ifs <;> rfl
  · rw [hhead₃, hhead₂]
    change (if _ then _ else l.head) = _
    rw [h.tail, h.head]
    cases ids <;> simp
  · exact getLast?_concat.symm
  · rw [hlen₃, hlen₂]
    change l.len + 1 = _
    rw [h.len, length_append, length_singleton]
  · rw [hwait₃, hwait₂]
    change (l.waitDone || l.len = 0) = _
    rw [h.len, h.waitDone]
    cases ids <;> simp
  · obtain ⟨y, hy, -, hget⟩ := hold i hi
    rw [value_eq hget, value_eq hy]
    split_ifs <;> rfl

end CList

end Demars
