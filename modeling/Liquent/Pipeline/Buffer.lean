import Liquent.ConsensusTypes.Data
import Liquent.Misc.Table

/-!
# The buffer of the pipeline

An ordered dictionary (`pipeline/buffer.rs`, cited by line): a hash map whose entries are linked in
the order in which they were pushed.  `none` stands for a panic of the source (an `unwrap` of
something that is not there), and for a scan of links that run in a circle.

`Represents` says which list a buffer stands for.  Each operation gets one lemma about the list, for
buffers whose elements have distinct hashes; `Holds` is about the elements alone and needs no order.
-/

namespace Liquent.Pipeline

open Misc

structure LinkedItem (T : Type) where
  elem : Option T
  index : Nat
  next : Option HashValue
deriving DecidableEq

abbrev Cursor := Option HashValue

structure Buffer (T : Type) where
  map : Table HashValue (LinkedItem T) := []
  count : Nat := 0
  head : Cursor := none
  tail : Cursor := none
deriving DecidableEq

namespace Buffer

variable {T : Type}

/-- Sets the link of the entry under `tail`. -/
def linkTail (map : Table HashValue (LinkedItem T)) (tail : Cursor) (key : HashValue) :
    Option (Table HashValue (LinkedItem T)) :=
  match tail with
  | none => some map
  | some tail => (map.get tail).map fun item => map.put tail { item with next := some key }

/-- `push_back` (47). -/
def pushBack (b : Buffer T) (hash : T → HashValue) (elem : T) : Option (Buffer T) :=
  if b.count < u64Max then
    let key := hash elem
    let map := b.map.put key { elem := some elem, index := b.count + 1, next := none }
    (linkTail map b.tail key).map fun map =>
      { map := map, count := b.count + 1, head := b.head.or (some key), tail := some key }
  else none

/-- `pop_front` (59). -/
def popFront (b : Buffer T) : Option (Option T × Buffer T) :=
  match b.head with
  | none => some (none, b)
  | some head => do
    let item ← b.map.get head
    let elem ← item.elem
    pure (some elem,
      { b with
        map := b.map.retain (· ≠ head)
        head := item.next
        tail := if item.next.isNone then none else b.tail })

/-- `get` (79). -/
def get (b : Buffer T) (cursor : Cursor) : Option T := do
  let key ← cursor
  let item ← b.map.get key
  item.elem

/-- `set` (84). -/
def set (b : Buffer T) (cursor : Cursor) (newVal : T) : Option (Buffer T) := do
  let key ← cursor
  let item ← b.map.get key
  pure { b with map := b.map.put key { item with elem := some newVal } }

/-- `take` (89): the entry stays, without its element. -/
def take (b : Buffer T) (cursor : Cursor) : Option (T × Buffer T) := do
  let key ← cursor
  let item ← b.map.get key
  let elem ← item.elem
  pure (elem, { b with map := b.map.put key { item with elem := none } })

/-- `exist` (93). -/
def exist (b : Buffer T) (cursor : Cursor) : Bool :=
  cursor.any fun key => (b.map.get key).isSome

/-- The loop of `find_elem_from`. -/
def scan (b : Buffer T) (compare : T → Bool) : Nat → Cursor → Option Cursor
  | _, none => some none
  | 0, some _ => none
  | fuel + 1, some key => do
    let item ← b.map.get key
    let elem ← item.elem
    if compare elem then some (some key) else b.scan compare fuel item.next

/-- `find_elem_from` (99). -/
def findElemFrom (b : Buffer T) (cursor : Cursor) (compare : T → Bool) : Option Cursor :=
  if b.exist cursor then b.scan compare b.map.length cursor else some none

/-- `find_elem_by_key` (115). -/
def findElemByKey (b : Buffer T) (cursor : Cursor) (key : HashValue) : Cursor := do
  let start ← b.map.get (← cursor)
  let item ← b.map.get key
  if start.index ≤ item.index then some key else none

variable {key : HashValue} {cursor : Cursor}

theorem findElemByKey_eq {b : Buffer T} {found : HashValue}
    (h : b.findElemByKey cursor key = some found) : found = key := by
  simp only [findElemByKey, Option.bind_eq_bind, Option.bind_eq_some_iff] at h
  obtain ⟨_, -, _, -, _, -, h⟩ := h
  split at h
  · exact (Option.some.inj h).symm
  · cases h

section Inversion

variable {b b' : Buffer T} {elem : T}

theorem set_eq_some (h : b.set cursor elem = some b') : ∃ key item, cursor = some key ∧
    b.map.get key = some item ∧ b' =
      { b with map := b.map.put key { item with elem := some elem } } := by
  simp only [set, Option.bind_eq_bind, Option.bind_eq_some_iff] at h
  obtain ⟨key, hkey, item, hitem, heq⟩ := h
  exact ⟨key, item, hkey, hitem, (Option.some.inj heq).symm⟩

theorem take_eq_some (h : b.take cursor = some (elem, b')) : ∃ key item, cursor = some key ∧
    b.map.get key = some item ∧ item.elem = some elem ∧
      b' = { b with map := b.map.put key { item with elem := none } } := by
  simp only [take, Option.bind_eq_bind, Option.bind_eq_some_iff] at h
  obtain ⟨key, hkey, item, hitem, elem', helem, heq⟩ := h
  obtain ⟨rfl, rfl⟩ := Prod.mk.inj (Option.some.inj heq)
  exact ⟨key, item, hkey, hitem, helem, rfl⟩

/-- The new entry is written; then the link of the last one, if there is one. -/
theorem pushBack_eq_some {hash : T → HashValue} (h : b.pushBack hash elem = some b') :
    ∃ map, linkTail
        (b.map.put (hash elem) { elem := some elem, index := b.count + 1, next := none })
        b.tail (hash elem) = some map ∧
      b' = { map := map, count := b.count + 1, head := b.head.or (some (hash elem))
             tail := some (hash elem) } := by
  unfold pushBack at h
  split at h
  · obtain ⟨map, hlink, heq⟩ := Option.map_eq_some_iff.mp h
    exact ⟨map, hlink, heq.symm⟩
  · cases h

theorem linkTail_eq_some {map map' : Table HashValue (LinkedItem T)} {tail : Cursor}
    (h : linkTail map tail key = some map') : tail = none ∧ map' = map ∨ ∃ last item,
      tail = some last ∧ map.get last = some item ∧ map' = map.put last
        { item with next := some key } := by
  cases tail with
  | none => exact .inl ⟨rfl, (Option.some.inj h).symm⟩
  | some last =>
    obtain ⟨item, hitem, heq⟩ := Option.map_eq_some_iff.mp h
    exact .inr ⟨last, item, rfl, hitem, heq.symm⟩

theorem get_of_take (h : b.take cursor = some (elem, b')) : b.get cursor = some elem := by
  obtain ⟨key, item, rfl, hitem, helem, -⟩ := take_eq_some h
  simp [get, hitem, helem]

end Inversion

/-! ## The elements -/

/-- Every element has a property together with its key. -/
def HoldsAt (P : HashValue → T → Prop) (b : Buffer T) : Prop :=
  ∀ key item elem, b.map.get key = some item → item.elem = some elem → P key elem

/-- Every element has a property. -/
def Holds (P : T → Prop) (b : Buffer T) : Prop :=
  ∀ key item elem, b.map.get key = some item → item.elem = some elem → P elem

variable {compare : T → Bool} {front : Option T} {hash : T → HashValue} {item : LinkedItem T}
  {fuel : Nat}

section HoldsAt

variable {P : HashValue → T → Prop} {b b' : Buffer T} {elem : T} {cursor : Cursor}

theorem holdsAt_empty : HoldsAt P ({} : Buffer T) := by
  intro key item elem hget
  cases hget

section

variable (h : HoldsAt P b)

include h

theorem HoldsAt.mono {Q : HashValue → T → Prop} (hPQ : ∀ key elem, P key elem → Q key elem) :
    HoldsAt Q b := fun key item elem hget helem => hPQ key elem (h key item elem hget helem)

theorem HoldsAt.get (hget : b.get cursor = some elem) : ∃ key, cursor = some key ∧ P key elem := by
  simp only [Buffer.get, Option.bind_eq_bind, Option.bind_eq_some_iff] at hget
  obtain ⟨key, rfl, item, hitem, helem⟩ := hget
  exact ⟨key, rfl, h key item elem hitem helem⟩

/-- The element of the entry, if it has one, has the property. -/
theorem HoldsAt.put (hitem : ∀ elem, item.elem = some elem → P key elem) :
    HoldsAt P { b with map := b.map.put key item } := by
  intro key' item' elem hget helem
  rcases Table.of_get_put hget with ⟨rfl, rfl⟩ | hget
  · exact hitem elem helem
  · exact h key' item' elem hget helem

theorem HoldsAt.set (hset : b.set cursor elem = some b')
    (helem : ∀ key, cursor = some key → P key elem) : HoldsAt P b' := by
  obtain ⟨key, item, rfl, -, rfl⟩ := set_eq_some hset
  apply h.put
  intro elem' heq
  obtain rfl := Option.some.inj heq
  exact helem key rfl

theorem HoldsAt.take (htake : b.take cursor = some (elem, b')) :
    (∀ key, cursor = some key → P key elem) ∧ HoldsAt P b' := by
  obtain ⟨key, item, rfl, hitem, helem, rfl⟩ := take_eq_some htake
  constructor
  · intro key' heq
    obtain rfl := Option.some.inj heq
    exact h _ item elem hitem helem
  · exact h.put nofun

theorem HoldsAt.pushBack
    (hpush : b.pushBack hash elem = some b') (helem : P (hash elem) elem) : HoldsAt P b' := by
  obtain ⟨map, hlink, rfl⟩ := pushBack_eq_some hpush
  let entry : LinkedItem T := { elem := some elem, index := b.count + 1, next := none }
  have hput : HoldsAt P { b with map := b.map.put (hash elem) entry } :=
    h.put fun elem' heq => Option.some.inj heq ▸ helem
  rcases linkTail_eq_some hlink with ⟨-, rfl⟩ | ⟨tail, item, -, hitem, rfl⟩
  · exact hput
  · exact hput.put (fun elem' heq => hput tail item elem' hitem heq)

theorem HoldsAt.popFront (hpop : b.popFront = some (front, b')) :
    (∀ elem, front = some elem → ∃ key, P key elem) ∧ HoldsAt P b' := by
  unfold Buffer.popFront at hpop
  cases hhead : b.head with
  | none =>
    rw [hhead] at hpop
    obtain ⟨rfl, rfl⟩ := Prod.mk.inj (Option.some.inj hpop)
    exact ⟨nofun, h⟩
  | some head =>
    simp only [hhead, Option.bind_eq_bind, Option.bind_eq_some_iff] at hpop
    obtain ⟨item, hitem, elem, helem, heq⟩ := hpop
    obtain ⟨rfl, rfl⟩ := Prod.mk.inj (Option.some.inj heq)
    constructor
    · intro elem' heq
      obtain rfl := Option.some.inj heq
      exact ⟨head, h head item elem hitem helem⟩
    · intro key item' elem' hget helem'
      exact h key item' elem' (Table.of_get_retain (p := (· ≠ head)) hget) helem'

end

/-- A search finds what it was looking for. -/
theorem scan_compare {start : Cursor} (h : b.scan compare fuel start = some (some key)) :
    HoldsAt (fun key' elem => key' = key → compare elem = true) b := by
  induction fuel generalizing start with
  | zero =>
    cases start with
    | none => cases Option.some.inj h
    | some start => cases h
  | succ fuel ih =>
    cases start with
    | none => cases Option.some.inj h
    | some start =>
      simp only [scan, Option.bind_eq_bind, Option.bind_eq_some_iff] at h
      obtain ⟨item, hitem, elem, helem, h⟩ := h
      split at h
      · rename_i hcompare
        obtain rfl := Option.some.inj (Option.some.inj h)
        rintro _ item' elem' hget helem' rfl
        obtain rfl := Option.some.inj (hitem.symm.trans hget)
        obtain rfl := Option.some.inj (helem.symm.trans helem')
        exact hcompare
      · exact ih h

theorem findElemFrom_compare {start : Cursor} (h : b.findElemFrom start compare = some (some key)) :
    HoldsAt (fun key' elem => key' = key → compare elem = true) b := by
  unfold findElemFrom at h
  split at h
  · exact scan_compare h
  · cases Option.some.inj h

end HoldsAt

variable {P : T → Prop} {b b' : Buffer T} {elem : T} {cursor : Cursor}

theorem holds_iff : Holds P b ↔ HoldsAt (fun _ elem => P elem) b := Iff.rfl

theorem holds_empty : Holds P ({} : Buffer T) := holdsAt_empty (P := fun _ => P)

section

variable (h : Holds P b)

include h

theorem Holds.get (hget : b.get cursor = some elem) : P elem := by
  obtain ⟨_, -, helem⟩ := (holds_iff.mp h).get hget
  exact helem

theorem Holds.set (hset : b.set cursor elem = some b') (helem : P elem) :
    Holds P b' := (holds_iff.mp h).set hset fun _ _ => helem

theorem Holds.take (htake : b.take cursor = some (elem, b')) : P elem ∧ Holds P b' := by
  refine ⟨h.get (get_of_take htake), ?_⟩
  exact ((holds_iff.mp h).take htake).2

theorem Holds.pushBack (hpush : b.pushBack hash elem = some b') (helem : P elem) : Holds P b' :=
  HoldsAt.pushBack (P := fun _ => P) h hpush helem

theorem Holds.popFront (hpop : b.popFront = some (front, b')) :
    (∀ elem, front = some elem → P elem) ∧ Holds P b' := by
  obtain ⟨hfront, hrest⟩ := (holds_iff.mp h).popFront hpop
  refine ⟨?_, hrest⟩
  intro elem helem
  obtain ⟨_, hP⟩ := hfront elem helem
  exact hP

end

/-! ## The list -/

variable (hash : T → HashValue)

/-- The entries of the elements of a list, each linked to the next. -/
def Linked (map : Table HashValue (LinkedItem T)) : List T → Prop
  | [] => True
  | a :: rest =>
    (∃ index, map.get (hash a) =
      some { elem := some a, index := index, next := rest.head?.map hash }) ∧
    Linked map rest

/-- The buffer holds the elements of a list, in this order. -/
structure Represents (b : Buffer T) (l : List T) : Prop where
  nodup : (l.map hash).Nodup
  head : b.head = l.head?.map hash
  tail : b.tail = l.getLast?.map hash
  linked : Linked hash b.map l
  only : ∀ key, (b.map.get key).isSome = true → key ∈ l.map hash

variable {hash} {l : List T}

theorem represents_empty : Represents hash ({} : Buffer T) [] :=
  ⟨.nil, rfl, rfl, trivial, nofun⟩

variable {map : Table HashValue (LinkedItem T)}

theorem Linked.congr {map' : Table HashValue (LinkedItem T)}
    (heq : ∀ a ∈ l, map'.get (hash a) = map.get (hash a)) (h : Linked hash map l) :
    Linked hash map' l := by
  induction l with
  | nil => trivial
  | cons a rest ih =>
    obtain ⟨⟨index, hget⟩, hrest⟩ := h
    refine ⟨⟨index, ?_⟩, ih (List.forall_mem_cons.mp heq).2 hrest⟩
    rw [heq a List.mem_cons_self]
    exact hget

variable {pre post : List T}

theorem Linked.of_append (h : Linked hash map (pre ++ post)) : Linked hash map post := by
  induction pre with
  | nil => exact h
  | cons a pre ih => exact ih h.2

/-- The entry of an element in the middle of the list. -/
theorem Linked.get {a : T} (h : Linked hash map (pre ++ a :: post)) : ∃ index, map.get (hash a) =
      some { elem := some a, index := index, next := post.head?.map hash } :=
  h.of_append.1

theorem Represents.mem_of_get (h : Represents hash b l) (hget : b.map.get key = some item) :
    ∃ pre a post, l = pre ++ a :: post ∧ hash a = key ∧ item.elem = some a ∧
      item.next = post.head?.map hash := by
  obtain ⟨a, ha, rfl⟩ := List.mem_map.mp (h.only key (Option.isSome_of_eq_some hget))
  obtain ⟨pre, post, rfl⟩ := List.append_of_mem ha
  obtain ⟨index, hentry⟩ := h.linked.get
  rw [hentry] at hget
  obtain rfl := Option.some.inj hget
  exact ⟨pre, a, post, rfl, rfl, rfl, rfl⟩

theorem Represents.head_ne {a item : T} {pre post : List T}
    (h : Represents hash b (a :: pre ++ item :: post)) : hash a ≠ hash item := by
  intro heq
  have hnodup := h.nodup
  rw [List.cons_append, List.map_cons, List.nodup_cons] at hnodup
  exact hnodup.1 (heq ▸ List.mem_map_of_mem (by simp))

theorem Represents.get (h : Represents hash b l) (hget : b.get cursor = some elem) :
    cursor = some (hash elem) ∧ elem ∈ l := by
  simp only [Buffer.get, Option.bind_eq_bind, Option.bind_eq_some_iff] at hget
  obtain ⟨key, rfl, item, hitem, helem⟩ := hget
  obtain ⟨pre, a, post, rfl, rfl, ha, -⟩ := h.mem_of_get hitem
  rw [ha] at helem
  obtain rfl := Option.some.inj helem
  exact ⟨rfl, by simp⟩

theorem Represents.popFront (h : Represents hash b l) (hpop : b.popFront = some (front, b')) :
    l = [] ∧ front = none ∧ b' = b ∨
      ∃ a rest, l = a :: rest ∧ front = some a ∧ Represents hash b' rest := by
  cases l with
  | nil =>
    have hhead : b.head = none := h.head
    simp only [Buffer.popFront, hhead] at hpop
    obtain ⟨rfl, rfl⟩ := Prod.mk.inj (Option.some.inj hpop)
    exact .inl ⟨rfl, rfl, rfl⟩
  | cons a rest =>
    have hhead : b.head = some (hash a) := h.head
    obtain ⟨⟨index, hget⟩, hrest⟩ := h.linked
    obtain ⟨hfresh, hnodup⟩ := List.nodup_cons.mp h.nodup
    simp only [Buffer.popFront, hhead, hget, Option.bind_eq_bind, Option.bind_some] at hpop
    obtain ⟨rfl, rfl⟩ := Prod.mk.inj (Option.some.inj hpop)
    refine .inr ⟨a, rest, rfl, rfl, hnodup, rfl, ?_, ?_, ?_⟩
    · cases rest with
      | nil => rfl
      | cons c rest =>
        have htail := h.tail
        rw [List.getLast?_cons_cons] at htail
        exact htail
    · refine hrest.congr ?_
      intro c hc
      have hne : hash c ≠ hash a := by
        intro heq
        exact hfresh (heq ▸ List.mem_map_of_mem hc)
      change (b.map.retain fun key => decide (key ≠ hash a)).get (hash c) = _
      rw [Table.get_retain, if_pos (by simpa using hne)]
    · intro key hkey
      change ((b.map.retain fun key => decide (key ≠ hash a)).get key).isSome = true at hkey
      rw [Table.get_retain] at hkey
      split at hkey
      · rename_i hne
        have hmem := h.only key hkey
        rcases List.mem_cons.mp hmem with heq | hmem
        · exact absurd heq (by simpa using hne)
        · exact hmem
      · cases hkey

theorem Represents.popFront_cons {a : T} {rest : List T} (h : Represents hash b (a :: rest)) :
    ∃ b', b.popFront = some (some a, b') ∧ Represents hash b' rest := by
  have hhead : b.head = some (hash a) := h.head
  obtain ⟨⟨index, hget⟩, -⟩ := h.linked
  cases hpop : b.popFront with
  | none => simp [Buffer.popFront, hhead, hget] at hpop
  | some popped =>
    obtain ⟨front, b'⟩ := popped
    rcases h.popFront hpop with ⟨hnil, -, -⟩ | ⟨first, rest', hl, rfl, hb'⟩
    · cases hnil
    · obtain ⟨rfl, rfl⟩ := List.cons.inj hl
      exact ⟨b', rfl, hb'⟩

/-- An element that is there can be taken out and another put in its place. -/
theorem take_set_of_get (new : T) (h : b.get cursor = some elem) :
    ∃ b₁ b₂, b.take cursor = some (elem, b₁) ∧ b₁.set cursor new = some b₂ := by
  simp only [Buffer.get, Option.bind_eq_bind, Option.bind_eq_some_iff] at h
  obtain ⟨key, rfl, item, hitem, helem⟩ := h
  simp [Buffer.take, Buffer.set, hitem, helem, Table.get_put_self]

theorem linked_put {a a' : T}
    (index : Nat) (hnodup : ((pre ++ a :: post).map hash).Nodup) (hhash : hash a' = hash a)
    (h : Linked hash map (pre ++ a :: post)) :
    Linked hash (map.put (hash a)
      { elem := some a', index := index, next := post.head?.map hash }) (pre ++ a' :: post) := by
  induction pre with
  | nil =>
    obtain ⟨hfresh, -⟩ := List.nodup_cons.mp hnodup
    refine ⟨⟨index, ?_⟩, ?_⟩
    · rw [hhash, Table.get_put_self]
    · refine h.2.congr ?_
      intro c hc
      refine Table.get_put_of_ne ?_
      intro heq
      exact hfresh (heq ▸ List.mem_map_of_mem hc)
  | cons c pre ih =>
    obtain ⟨hfresh, hnodup⟩ := List.nodup_cons.mp hnodup
    obtain ⟨⟨index', hget⟩, hrest⟩ := h
    have hne : hash c ≠ hash a := by
      intro heq
      exact hfresh (heq ▸ List.mem_map_of_mem (by simp))
    have hnext : (pre ++ a' :: post).head?.map hash = (pre ++ a :: post).head?.map hash := by
      cases pre with
      | nil => exact congrArg some hhash
      | cons => rfl
    refine ⟨⟨index', ?_⟩, ih hnodup hrest⟩
    change _ = some (LinkedItem.mk (some c) index' ((pre ++ a' :: post).head?.map hash))
    rw [Table.get_put_of_ne hne, hget, hnext]
    rfl

theorem getLast?_map_hash_replace {a a' : T} (hhash : hash a' = hash a) :
    (pre ++ a' :: post).getLast?.map hash = (pre ++ a :: post).getLast?.map hash := by
  cases post with
  | nil => simp [hhash]
  | cons c post => simp [List.getLast?_cons_cons]

theorem map_hash_replace {a a' : T} (hhash : hash a' = hash a) :
    (pre ++ a' :: post).map hash = (pre ++ a :: post).map hash := by
  simp [hhash]

/-- An element is taken out, changed and put back in its place. -/
theorem Represents.take_set {b₁ b₂ : Buffer T} {new : T} (h : Represents hash b l)
    (htake : b.take cursor = some (elem, b₁)) (hset : b₁.set cursor new = some b₂)
    (hhash : hash new = hash elem) :
    ∃ pre post, l = pre ++ elem :: post ∧ cursor = some (hash elem) ∧
      Represents hash b₂ (pre ++ new :: post) := by
  obtain ⟨key, item, rfl, hitem, helem, rfl⟩ := take_eq_some htake
  obtain ⟨pre, a, post, rfl, rfl, ha, hnext⟩ := h.mem_of_get hitem
  rw [ha] at helem
  obtain rfl := Option.some.inj helem
  obtain ⟨key, item', hkey, hitem', rfl⟩ := set_eq_some hset
  obtain rfl := Option.some.inj hkey
  rw [Table.get_put_self] at hitem'
  obtain rfl := Option.some.inj hitem'
  refine ⟨pre, post, rfl, rfl, ?_, ?_, ?_, ?_, ?_⟩
  · rw [map_hash_replace hhash]
    exact h.nodup
  · refine h.head.trans ?_
    cases pre with
    | nil => exact congrArg some hhash.symm
    | cons => rfl
  · exact h.tail.trans (getLast?_map_hash_replace hhash).symm
  · refine (linked_put item.index h.nodup hhash h.linked).congr ?_
    intro c hc
    by_cases hc' : hash c = hash a
    · rw [hc', Table.get_put_self, Table.get_put_self, hnext]
    · rw [Table.get_put_of_ne hc', Table.get_put_of_ne hc', Table.get_put_of_ne hc']
  · intro key hkey
    rw [map_hash_replace hhash]
    by_cases hkey' : key = hash a
    · rw [hkey']
      exact List.mem_map_of_mem (by simp)
    · change ((Table.put _ (hash a) _).get key).isSome = true at hkey
      rw [Table.get_put_of_ne hkey', Table.get_put_of_ne hkey'] at hkey
      exact h.only key hkey

theorem linked_snoc {last : T} {index : Nat}
    (hnodup : ((l ++ [last]).map hash).Nodup) (h : Linked hash map l)
    (hlast : map.get (hash last) = some { elem := some last, index := index, next := none })
    {map' : Table HashValue (LinkedItem T)}
    (hlink : linkTail map (l.getLast?.map hash) (hash last) = some map') :
    Linked hash map' (l ++ [last]) := by
  induction l generalizing map map' with
  | nil =>
    obtain rfl := Option.some.inj hlink
    exact ⟨⟨index, hlast⟩, trivial⟩
  | cons a rest ih =>
    obtain ⟨hfresh, hnodup⟩ := List.nodup_cons.mp hnodup
    obtain ⟨⟨index', hget⟩, hrest⟩ := h
    cases rest with
    | nil =>
      simp only [List.getLast?_singleton, Option.map_some, linkTail, hget] at hlink
      obtain rfl := Option.some.inj hlink
      have hne : hash last ≠ hash a := by
        intro heq
        exact hfresh (heq ▸ List.mem_map_of_mem (by simp))
      refine ⟨⟨index', by rw [Table.get_put_self]; rfl⟩, ⟨index, ?_⟩, trivial⟩
      rw [Table.get_put_of_ne hne]
      exact hlast
    | cons c rest =>
      rw [List.getLast?_cons_cons] at hlink
      refine ⟨⟨index', ?_⟩, ih hnodup hrest hlast hlink⟩
      obtain ⟨tail, htail⟩ := Option.isSome_iff_exists.mp
        (List.getLast?_isSome.mpr (List.cons_ne_nil c rest))
      simp only [htail, Option.map_some, linkTail, Option.map_eq_some_iff] at hlink
      obtain ⟨item, -, rfl⟩ := hlink
      have hne : hash a ≠ hash tail := by
        intro heq
        refine hfresh (heq ▸ List.mem_map_of_mem ?_)
        exact List.mem_append_left _ (List.mem_of_getLast? htail)
      rw [Table.get_put_of_ne hne]
      exact hget

theorem Represents.pushBack (h : Represents hash b l) (hfresh : hash elem ∉ l.map hash)
    (hpush : b.pushBack hash elem = some b') : Represents hash b' (l ++ [elem]) := by
  have hnodup : ((l ++ [elem]).map hash).Nodup := by
    simpa using h.nodup.concat hfresh
  obtain ⟨map, hlink, rfl⟩ := pushBack_eq_some hpush
  let entry : LinkedItem T := { elem := some elem, index := b.count + 1, next := none }
  have hlinked : Linked hash (b.map.put (hash elem) entry) l := by
    refine h.linked.congr ?_
    intro a ha
    refine Table.get_put_of_ne ?_
    intro heq
    exact hfresh (heq ▸ List.mem_map_of_mem ha)
  refine ⟨hnodup, ?_, ?_, linked_snoc hnodup hlinked Table.get_put_self (h.tail ▸ hlink), ?_⟩
  · rw [h.head]
    cases l with
    | nil | cons a rest => rfl
  · rw [List.getLast?_concat]
    rfl
  · intro key hkey
    rw [List.map_append, List.mem_append]
    by_cases hnew : key = hash elem
    · exact .inr (by simp [hnew])
    · refine .inl (h.only key ?_)
      rcases linkTail_eq_some hlink with ⟨-, rfl⟩ | ⟨tail, item, -, hitem, rfl⟩
      · rw [Table.get_put_of_ne hnew] at hkey
        exact hkey
      · by_cases htail : key = tail
        · rw [← htail, Table.get_put_of_ne hnew] at hitem
          exact Option.isSome_of_eq_some hitem
        · rw [Table.get_put_of_ne htail, Table.get_put_of_ne hnew] at hkey
          exact hkey

variable {found : Cursor}

/-- The scan stops at the first element that passes the test. -/
theorem scan_spec
    (h : Linked hash b.map l) (hscan : b.scan compare fuel (l.head?.map hash) = some found) :
    found = none ∧ (∀ a ∈ l, compare a = false) ∨
      ∃ pre a post, l = pre ++ a :: post ∧ (∀ c ∈ pre, compare c = false) ∧
        compare a = true ∧ found = some (hash a) := by
  induction fuel generalizing l with
  | zero =>
    cases l with
    | nil =>
      refine .inl ⟨?_, by simp⟩
      simpa [scan] using hscan.symm
    | cons a rest => simp [scan] at hscan
  | succ fuel ih =>
    cases l with
    | nil =>
      refine .inl ⟨?_, by simp⟩
      simpa [scan] using hscan.symm
    | cons a rest =>
      obtain ⟨⟨index, hget⟩, hrest⟩ := h
      simp only [List.head?_cons, Option.map_some, scan, hget, Option.bind_eq_bind,
        Option.bind_some] at hscan
      by_cases ha : compare a = true
      · rw [if_pos ha] at hscan
        exact .inr ⟨[], a, rest, rfl, by simp, ha, (Option.some.inj hscan).symm⟩
      · rw [if_neg ha] at hscan
        rw [Bool.not_eq_true] at ha
        rcases ih hrest hscan with ⟨rfl, hnone⟩ | ⟨pre, c, post, rfl, hpre, hc, rfl⟩
        · exact .inl ⟨rfl, List.forall_mem_cons.mpr ⟨ha, hnone⟩⟩
        · exact .inr ⟨a :: pre, c, post, rfl, List.forall_mem_cons.mpr ⟨ha, hpre⟩, hc, rfl⟩

/-- The first element that passes is found from any place that is not after it. -/
theorem Represents.findElemFrom
    (h : Represents hash b (pre ++ post)) (hpre : ∀ a ∈ pre, compare a = false)
    (hfind : b.findElemFrom (post.head?.map hash) compare = some found) :
    found = ((pre ++ post).find? compare).map hash := by
  have hnone : pre.find? compare = none := by
    rw [List.find?_eq_none]
    intro a ha
    simp [hpre a ha]
  rw [List.find?_append, hnone, Option.none_or]
  have hlinked := h.linked.of_append
  unfold Buffer.findElemFrom at hfind
  cases post with
  | nil => exact (Option.some.inj hfind).symm
  | cons a post =>
    obtain ⟨⟨index, hget⟩, -⟩ := id hlinked
    have hexist : b.exist (some (hash a)) = true := by simp [exist, hget]
    rw [List.head?_cons, Option.map_some, if_pos hexist] at hfind
    rcases scan_spec hlinked hfind with ⟨rfl, hall⟩ | ⟨pre', c, post', heq, hpre', hc, rfl⟩
    · have hfalse : (a :: post).find? compare = none := by
        rw [List.find?_eq_none]
        intro c hc
        simp [hall c hc]
      rw [hfalse]
      rfl
    · have hfound : (a :: post).find? compare = some c := by
        rw [List.find?_eq_some_iff_append]
        exact ⟨hc, pre', post', heq, fun d hd => by simp [hpre' d hd]⟩
      rw [hfound]
      rfl

theorem Represents.findElemFrom_head
    (h : Represents hash b l) (hfind : b.findElemFrom b.head compare = some found) :
    found = (l.find? compare).map hash := by
  have hnone : ∀ a ∈ ([] : List T), compare a = false := by simp
  rw [h.head] at hfind
  exact findElemFrom (List.nil_append l ▸ h) hnone hfind

theorem scan_mem (h : b.scan compare fuel cursor = some (some key)) :
    (b.map.get key).isSome = true := by
  induction fuel generalizing cursor with
  | zero => cases cursor <;> cases h
  | succ fuel ih =>
    cases cursor with
    | none => cases h
    | some start =>
      simp only [scan, Option.bind_eq_bind, Option.bind_eq_some_iff] at h
      obtain ⟨item, hitem, elem, -, h⟩ := h
      split at h
      · obtain rfl := Option.some.inj (Option.some.inj h)
        rw [hitem]
        rfl
      · exact ih h

/-- Whatever is found is in the buffer. -/
theorem Represents.findElemFrom_mem (h : Represents hash b l)
    (hfind : b.findElemFrom cursor compare = some (some key)) : key ∈ l.map hash := by
  unfold Buffer.findElemFrom at hfind
  split at hfind
  · exact h.only key (scan_mem hfind)
  · cases hfind

theorem Represents.length_le (h : Represents hash b l) : l.length ≤ b.map.length := by
  have hsub : l.map hash ⊆ b.map.keys := by
    refine List.forall_mem_map.mpr fun a ha => ?_
    obtain ⟨pre, post, rfl⟩ := List.append_of_mem ha
    obtain ⟨index, hget⟩ := h.linked.get
    exact Table.mem_keys_iff_get.mpr ⟨_, hget⟩
  simpa [Table.keys] using (h.nodup.subperm hsub).length_le

/-! ## The indices -/

/-- The indices grow along a list of keys. -/
structure Indexed (b : Buffer T) (keys : List HashValue) : Prop where
  grows : keys.Pairwise fun key key' => ∀ item item', b.map.get key = some item →
    b.map.get key' = some item' → item.index < item'.index
  counted : ∀ key item, b.map.get key = some item → item.index ≤ b.count

variable {keys : List HashValue}

theorem indexed_empty : Indexed ({} : Buffer T) [] := by
  refine ⟨.nil, ?_⟩
  intro key item hget
  cases hget

/-- Entries may go, and their elements may change. -/
theorem Indexed.shrink (h : Indexed b keys) (hcount : b'.count = b.count)
    (hold : ∀ key item', b'.map.get key = some item' →
      ∃ item, b.map.get key = some item ∧ item.index = item'.index) : Indexed b' keys := by
  constructor
  · refine h.grows.imp ?_
    intro key key' hlt item item' hget hget'
    obtain ⟨old, hold₁, heq⟩ := hold key item hget
    obtain ⟨old', hold₂, heq'⟩ := hold key' item' hget'
    rw [← heq, ← heq']
    exact hlt old old' hold₁ hold₂
  · intro key item hget
    obtain ⟨old, hold₁, heq⟩ := hold key item hget
    rw [← heq, hcount]
    exact h.counted key old hold₁

/-- An entry is written again with its index. -/
theorem get_put_index
    {new : LinkedItem T} (hitem : map.get key = some item) (hindex : new.index = item.index)
    (key' : HashValue) (item' : LinkedItem T) (hget : (map.put key new).get key' = some item') :
    ∃ old, map.get key' = some old ∧ old.index = item'.index := by
  rcases Table.of_get_put hget with ⟨rfl, rfl⟩ | hget
  · exact ⟨item, hitem, hindex.symm⟩
  · exact ⟨item', hget, rfl⟩

theorem Indexed.set (h : Indexed b keys) (hset : b.set cursor elem = some b') :
    Indexed b' keys := by
  obtain ⟨key, item, -, hitem, rfl⟩ := set_eq_some hset
  exact h.shrink rfl (get_put_index hitem rfl)

theorem Indexed.take (h : Indexed b keys) (htake : b.take cursor = some (elem, b')) :
    Indexed b' keys := by
  obtain ⟨key, item, -, hitem, -, rfl⟩ := take_eq_some htake
  exact h.shrink rfl (get_put_index hitem rfl)

theorem Indexed.popFront (h : Indexed b (key :: keys))
    (hpop : b.popFront = some (front, b')) : Indexed b' keys := by
  have htail : Indexed b keys := ⟨(List.pairwise_cons.mp h.grows).2, h.counted⟩
  unfold Buffer.popFront at hpop
  cases hhead : b.head with
  | none =>
    rw [hhead] at hpop
    obtain ⟨-, rfl⟩ := Prod.mk.inj (Option.some.inj hpop)
    exact htail
  | some head =>
    simp only [hhead, Option.bind_eq_bind, Option.bind_eq_some_iff] at hpop
    obtain ⟨item, -, elem, -, heq⟩ := hpop
    obtain ⟨-, rfl⟩ := Prod.mk.inj (Option.some.inj heq)
    refine htail.shrink (by rfl) fun _ item' hget => ⟨item', ?_, rfl⟩
    exact Table.of_get_retain (p := (· ≠ head)) hget

theorem Indexed.pushBack (h : Indexed b keys) (hfresh : hash elem ∉ keys)
    (hpush : b.pushBack hash elem = some b') : Indexed b' (keys ++ [hash elem]) := by
  -- the new entry has the next index, the others keep theirs
  have hold : b'.count = b.count + 1 ∧ ∀ key item', b'.map.get key = some item' →
      if key = hash elem then item'.index = b.count + 1
      else ∃ item, b.map.get key = some item ∧ item.index = item'.index := by
    obtain ⟨map, hlink, rfl⟩ := pushBack_eq_some hpush
    let entry : LinkedItem T := { elem := some elem, index := b.count + 1, next := none }
    have hput : ∀ key item', (b.map.put (hash elem) entry).get key = some item' →
        if key = hash elem then item'.index = b.count + 1
        else ∃ item, b.map.get key = some item ∧ item.index = item'.index := by
      intro key item' hget
      rw [Table.get_put] at hget
      split at hget
      · rename_i heq
        rw [if_pos heq]
        obtain rfl := Option.some.inj hget
        rfl
      · rename_i hne
        rw [if_neg hne]
        exact ⟨item', hget, rfl⟩
    refine ⟨rfl, ?_⟩
    intro key item' hget
    rcases linkTail_eq_some hlink with ⟨-, rfl⟩ | ⟨tail, item, -, hitem, rfl⟩
    · exact hput key item' hget
    · have hindex : ({ item with next := some (hash elem) } : LinkedItem T).index =
        item.index := rfl
      obtain ⟨old, hold, heq⟩ := get_put_index hitem hindex key item' hget
      rw [← heq]
      exact hput key old hold
  obtain ⟨hcount, hold⟩ := hold
  have hother {key : HashValue} (hkey : key ∈ keys) {item' : LinkedItem T}
      (hget : b'.map.get key = some item') :
      ∃ item, b.map.get key = some item ∧ item.index = item'.index := by
    have hcase := hold key item' hget
    have hne : key ≠ hash elem := by
      rintro rfl
      exact hfresh hkey
    rw [if_neg hne] at hcase
    exact hcase
  constructor
  · rw [List.pairwise_append]
    refine ⟨?_, List.pairwise_singleton .., ?_⟩
    · refine h.grows.imp_of_mem ?_
      intro key key' hkey hkey' hlt item item' hget hget'
      obtain ⟨old, hold₁, heq⟩ := hother hkey hget
      obtain ⟨old', hold₂, heq'⟩ := hother hkey' hget'
      rw [← heq, ← heq']
      exact hlt old old' hold₁ hold₂
    · intro key hkey key' hkey' item item' hget hget'
      obtain rfl := List.mem_singleton.mp hkey'
      obtain ⟨old, hold₁, heq⟩ := hother hkey hget
      have hnew := hold _ item' hget'
      rw [if_pos rfl] at hnew
      have hle := h.counted key old hold₁
      omega
  · intro key item' hget
    have hcase := hold key item' hget
    split at hcase
    · omega
    · obtain ⟨item, hitem, heq⟩ := hcase
      have hle := h.counted key item hitem
      omega

/-- An element is found from every element that is not after it. -/
theorem Represents.findElemByKey {mid : List T} {a a' : T}
    (h : Represents hash b l) (hindex : Indexed b (l.map hash))
    (hl : l = pre ++ a :: mid) (ha' : a' ∈ a :: mid) :
    b.findElemByKey (some (hash a)) (hash a') = some (hash a') := by
  subst hl
  obtain ⟨index, hget⟩ := h.linked.get
  obtain ⟨mid₁, mid₂, hmid⟩ := List.append_of_mem ha'
  have hlinked := h.linked
  rw [hmid, ← List.append_assoc] at hlinked
  obtain ⟨index', hget'⟩ := hlinked.get
  have hle : index ≤ index' := by
    rcases List.mem_cons.mp ha' with rfl | hmem
    · have heq := Option.some.inj (hget.symm.trans hget')
      exact le_of_eq (congrArg LinkedItem.index heq)
    · have hgrows := hindex.grows
      rw [List.map_append, List.map_cons, List.pairwise_append, List.pairwise_cons] at hgrows
      have hlt := hgrows.2.1.1 (hash a') (List.mem_map_of_mem hmem) _ _ hget hget'
      exact le_of_lt hlt
  simp [Buffer.findElemByKey, hget, hget', hle]

theorem Represents.findElemByKey_head {a : T} (h : Represents hash b l)
    (hindex : Indexed b (l.map hash)) (ha : a ∈ l) :
    b.findElemByKey b.head (hash a) = some (hash a) := by
  cases l with
  | nil => cases ha
  | cons first rest =>
    have hhead : b.head = some (hash first) := h.head
    rw [hhead]
    exact h.findElemByKey hindex (List.nil_append _).symm ha

theorem Represents.findElemByKey_of_not_mem (h : Represents hash b l)
    (hkey : key ∉ l.map hash) (start : Cursor) : b.findElemByKey start key = none := by
  have habsent : b.map.get key = none := by
    cases hget : b.map.get key with
    | none => rfl
    | some item => exact absurd (h.only key (by rw [hget]; rfl)) hkey
  cases start with
  | none => rfl
  | some start => simp [Buffer.findElemByKey, habsent]

/-! ## Operations that succeed -/

theorem scan_isSome {l : List T} (h : Linked hash b.map l)
    (hfuel : l.length ≤ fuel) : (b.scan compare fuel (l.head?.map hash)).isSome = true := by
  induction l generalizing fuel with
  | nil =>
    cases fuel with
    | zero | succ fuel => rfl
  | cons a rest ih =>
    obtain ⟨fuel, rfl⟩ : ∃ n, fuel = n + 1 := ⟨fuel - 1, by simp at hfuel; omega⟩
    obtain ⟨⟨index, hget⟩, hrest⟩ := h
    simp only [List.head?_cons, Option.map_some, scan, hget, Option.bind_eq_bind, Option.bind_some]
    split
    · rfl
    · exact ih hrest (by simpa using hfuel)

theorem Represents.findElemFrom_isSome (h : Represents hash b l) (start : Cursor)
    (compare : T → Bool) : (b.findElemFrom start compare).isSome = true := by
  unfold Buffer.findElemFrom
  split
  · rename_i hexist
    cases start with
    | none => cases hexist
    | some key =>
      have hmem := h.only key (by simpa [Buffer.exist] using hexist)
      obtain ⟨a, ha, rfl⟩ := List.mem_map.mp hmem
      obtain ⟨pre, post, rfl⟩ := List.append_of_mem ha
      have hlength := h.length_le
      rw [List.length_append] at hlength
      have hlinked : Linked hash b.map (a :: post) := h.linked.of_append
      exact scan_isSome hlinked (by omega)
  · rfl

theorem Represents.pushBack_isSome (h : Represents hash b l) (hroom : b.count < u64Max) (elem : T) :
    ∃ b', b.pushBack hash elem = some b' := by
  unfold Buffer.pushBack
  rw [if_pos hroom]
  cases htail : l.getLast? with
  | none =>
    rw [h.tail, htail]
    exact ⟨_, rfl⟩
  | some last =>
    rw [h.tail, htail]
    have hmem := List.mem_of_getLast? htail
    obtain ⟨pre, post, rfl⟩ := List.append_of_mem hmem
    obtain ⟨index, hget⟩ := h.linked.get
    simp only [linkTail, Option.map_some, Table.get_put]
    split
    · exact ⟨_, rfl⟩
    · rw [hget]
      exact ⟨_, rfl⟩

end Buffer

end Liquent.Pipeline
