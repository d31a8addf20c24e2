import Mathlib.Algebra.GroupWithZero.Nat
import Mathlib.Data.List.MinMax
import Mathlib.Data.List.Perm.Subperm
import Mathlib.Data.List.Sort

/-!
# Tables

A table of a database, as a list of entries with at most one entry for each key.  Writing a key
replaces its entry.
-/

namespace Liquent.Misc

/-- A table with keys `κ` and values `ν`. -/
abbrev Table (κ ν : Type) := List (κ × ν)

namespace Table

variable {κ ν : Type} [DecidableEq κ] {t : Table κ ν} {k k' : κ} {v v' : ν}

/-- The value under a key. -/
def get (t : Table κ ν) (k : κ) : Option ν := (t.find? (·.1 = k)).map (·.2)

/-- Writes a value, replacing the one that was under the key. -/
def put (t : Table κ ν) (k : κ) (v : ν) : Table κ ν := (k, v) :: t.filter (·.1 ≠ k)

/-- Writes several values, in order. -/
def putAll (t : Table κ ν) (entries : List (κ × ν)) : Table κ ν :=
  entries.foldl (fun t e => t.put e.1 e.2) t

/-- Keeps the entries whose key passes a test (`HashMap::retain`). -/
def retain (t : Table κ ν) (p : κ → Bool) : Table κ ν := t.filter (p ·.1)

/-- Rewrites every value in place. -/
def mapValues (t : Table κ ν) (f : κ → ν → ν) : Table κ ν := t.map fun e => (e.1, f e.1 e.2)

/-- The entry with the largest key. -/
def last [LinearOrder κ] (t : Table κ ν) : Option (κ × ν) := List.argmax (·.1) t

theorem get_put_self : (t.put k v).get k = some v := by
  simp [get, put]

theorem get_put_of_ne (h : k' ≠ k) : (t.put k v).get k' = t.get k' := by
  have hfilter : (t.filter (·.1 ≠ k)).find? (·.1 = k') = t.find? (·.1 = k') := by
    rw [List.find?_filter]
    congr 1
    funext e
    by_cases he : e.1 = k'
    · simp [he, h]
    · simp [he]
  have hhead : ¬ k = k' := fun heq => h heq.symm
  simp only [get, put, List.find?_cons, hhead, decide_false]
  rw [hfilter]

theorem get_put : (t.put k v).get k' = if k' = k then some v else t.get k' := by
  by_cases hk : k' = k
  · rw [if_pos hk, hk, get_put_self]
  · rw [if_neg hk, get_put_of_ne hk]

/-- What is found after a write was written or was there before. -/
theorem of_get_put (h : (t.put k v).get k' = some v') : k' = k ∧ v' = v ∨ t.get k' = some v' := by
  by_cases hk : k' = k
  · subst hk
    exact .inl ⟨rfl, Option.some.inj (h.symm.trans get_put_self)⟩
  · exact .inr ((get_put_of_ne hk).symm.trans h)

theorem forall_get_put {P : κ → ν → Prop} (h : ∀ k v, t.get k = some v → P k v) (hnew : P k v) :
    ∀ k' v', (t.put k v).get k' = some v' → P k' v' := by
  intro k' v' hget
  rcases of_get_put hget with ⟨rfl, rfl⟩ | hget
  · exact hnew
  · exact h k' v' hget

theorem get_nil : get ([] : Table κ ν) k = none := rfl

theorem get_cons (e : κ × ν) (rest : Table κ ν) :
    get (e :: rest) k = if e.1 = k then some e.2 else get rest k := by
  by_cases hk : e.1 = k
  · simp [get, hk]
  · simp [get, hk]

theorem get_retain (p : κ → Bool) : (t.retain p).get k = if p k then t.get k else none := by
  induction t with
  | nil => simp [retain, get_nil]
  | cons e rest ih =>
    have hcons : retain (e :: rest) p = if p e.1 then e :: retain rest p else retain rest p :=
      List.filter_cons ..
    rw [hcons, get_cons]
    by_cases hk : e.1 = k
    · subst hk
      by_cases hp : p e.1 = true
      · simp [hp, get_cons]
      · simp [hp, ih]
    · by_cases hp : p e.1 = true
      · simp [hp, get_cons, hk, ih]
      · simp [hp, hk, ih]

theorem of_get_retain {p : κ → Bool} (h : (t.retain p).get k = some v) : t.get k = some v := by
  rw [get_retain] at h
  split at h
  · exact h
  · cases h

theorem get_mapValues (f : κ → ν → ν) : (t.mapValues f).get k = (t.get k).map (f k) := by
  induction t with
  | nil => rfl
  | cons e rest ih =>
    have hcons : mapValues (e :: rest) f = (e.1, f e.1 e.2) :: mapValues rest f := rfl
    rw [hcons, get_cons, get_cons, ih]
    by_cases hk : e.1 = k
    · simp [hk]
    · simp [hk]

/-- The keys of a table. -/
def keys (t : Table κ ν) : List κ := t.map (·.1)

theorem mem_keys_iff : k ∈ t.keys ↔ (t.get k).isSome := by
  induction t with
  | nil => simp [keys, get_nil]
  | cons e rest ih =>
    have hcons : keys (e :: rest) = e.1 :: keys rest := rfl
    rw [hcons, get_cons, List.mem_cons]
    by_cases hk : e.1 = k
    · simp [hk]
    · have hne : ¬ k = e.1 := fun heq => hk heq.symm
      simp [hk, hne, ih]

theorem mem_keys_iff_get : k ∈ t.keys ↔ ∃ v, t.get k = some v :=
  mem_keys_iff.trans Option.isSome_iff_exists

theorem get_eq_none (h : k ∉ t.keys) : t.get k = none := by
  rw [mem_keys_iff] at h
  simpa using h

theorem mem_keys_put : k' ∈ (t.put k v).keys ↔ k' = k ∨ k' ∈ t.keys := by
  rw [mem_keys_iff, mem_keys_iff]
  by_cases hk : k' = k
  · subst hk
    simp [get_put_self]
  · simp [get_put_of_ne hk, hk]

theorem mem_keys_retain {p : κ → Bool} : k ∈ (t.retain p).keys ↔ k ∈ t.keys ∧ p k = true := by
  rw [mem_keys_iff, mem_keys_iff, get_retain]
  by_cases hp : p k = true
  · simp [hp]
  · simp [hp]

omit [DecidableEq κ] in
theorem keys_mapValues (f : κ → ν → ν) : (t.mapValues f).keys = t.keys := by
  simp [keys, mapValues]

theorem nodup_keys_put (h : t.keys.Nodup) (k : κ) (v : ν) : (t.put k v).keys.Nodup := by
  unfold put
  have hcons : keys ((k, v) :: t.filter (·.1 ≠ k)) = k :: keys (t.filter (·.1 ≠ k)) := rfl
  rw [hcons, List.nodup_cons]
  constructor
  · intro hmem
    obtain ⟨e, he, hkey⟩ := List.mem_map.mp hmem
    have hne := (List.mem_filter.mp he).2
    simp only [ne_eq, decide_not, Bool.not_eq_true', decide_eq_false_iff_not] at hne
    exact hne hkey
  · exact h.sublist (List.Sublist.map _ List.filter_sublist)

theorem keys_put_new (h : k ∉ t.keys) : (t.put k v).keys = k :: t.keys := by
  have hfilter : t.filter (·.1 ≠ k) = t := by
    apply List.filter_eq_self.mpr
    intro e he
    have hne : e.1 ≠ k := fun heq => h (heq ▸ List.mem_map_of_mem he)
    simpa using hne
  unfold put
  rw [hfilter]
  rfl

/-- Replacing a value permutes the keys. -/
theorem keys_put_perm (hnodup : t.keys.Nodup) (h : k ∈ t.keys) : (t.put k v).keys.Perm t.keys := by
  have hkeys : (t.put k v).keys = k :: t.keys.filter (· ≠ k) := by
    unfold put keys
    rw [List.map_cons, List.filter_map]
    rfl
  rw [hkeys]
  have herase : t.keys.filter (· ≠ k) = t.keys.erase k := by
    rw [hnodup.erase_eq_filter]
    refine List.filter_congr fun a _ => ?_
    by_cases hak : a = k
    · simp [hak]
    · simp [hak]
  rw [herase]
  exact (List.perm_cons_erase h).symm

omit [DecidableEq κ] in
/-- A table is not larger than a list in which every key has an element of its own. -/
theorem length_le {α : Type} {l : List α} (f : α → κ) (hnodup : t.keys.Nodup)
    (h : ∀ k ∈ t.keys, ∃ a ∈ l, f a = k) : t.length ≤ l.length := by
  have hsub : t.keys ⊆ l.map f := fun k hk => List.mem_map.mpr (h k hk)
  simpa [keys] using (hnodup.subperm hsub).length_le

/-- A sum over the values of a table. -/
def total (t : Table κ ν) (f : ν → Nat) : Nat := (t.map (f ·.2)).sum

theorem total_retain (hnodup : t.keys.Nodup) (k : κ) (f : ν → Nat) :
    (t.retain (· ≠ k)).total f + (t.get k).elim 0 f = t.total f := by
  induction t with
  | nil => rfl
  | cons e rest ih =>
    obtain ⟨hnew, hrest⟩ := List.nodup_cons.mp hnodup
    have hsum := ih hrest
    by_cases hk : e.1 = k
    · rw [get_eq_none (hk ▸ hnew)] at hsum
      simp only [retain, total, get_cons, hk] at hsum ⊢
      simp [hk] at hsum ⊢
      omega
    · simp only [retain, total, get_cons, hk] at hsum ⊢
      simp [hk] at hsum ⊢
      omega

/-- A write adds the new value and takes away the one it replaces. -/
theorem total_put (hnodup : t.keys.Nodup) (k : κ) (v : ν) (f : ν → Nat) :
    (t.put k v).total f + (t.get k).elim 0 f = t.total f + f v := by
  have hput : (t.put k v).total f = f v + (t.retain (· ≠ k)).total f := by
    simp [put, retain, total]
  have hretain := total_retain hnodup k f
  omega

theorem nodup_keys_putAll (h : t.keys.Nodup) (entries : List (κ × ν)) :
    (t.putAll entries).keys.Nodup := by
  induction entries generalizing t with
  | nil => exact h
  | cons e rest ih => exact ih (nodup_keys_put h e.1 e.2)

variable {entries : List (κ × ν)}

theorem mem_keys_putAll : k ∈ (t.putAll entries).keys ↔ k ∈ entries.map (·.1) ∨ k ∈ t.keys := by
  induction entries generalizing t with
  | nil => simp [putAll]
  | cons e rest ih =>
    have hcons : t.putAll (e :: rest) = (t.put e.1 e.2).putAll rest := rfl
    rw [hcons, ih, mem_keys_put, List.map_cons, List.mem_cons]
    constructor
    · rintro (hrest | he | ht)
      · exact .inl (.inr hrest)
      · exact .inl (.inl he)
      · exact .inr ht
    · rintro ((he | hrest) | ht)
      · exact .inr (.inl he)
      · exact .inl hrest
      · exact .inr (.inr ht)

omit [DecidableEq κ] in
theorem retain_eq_self {p : κ → Bool} (h : ∀ k ∈ t.keys, p k = true) : t.retain p = t := by
  apply List.filter_eq_self.mpr
  intro e he
  exact h e.1 (List.mem_map_of_mem he)

theorem mem_of_get (h : t.get k = some v) : (k, v) ∈ t := by
  unfold get at h
  cases hfind : t.find? (·.1 = k) with
  | none => simp [hfind] at h
  | some e =>
    have hkey : e.1 = k := by simpa using List.find?_some hfind
    have hvalue : e.2 = v := by simpa [hfind] using h
    rw [← hkey, ← hvalue]
    exact List.mem_of_find?_eq_some hfind

variable {e : κ × ν}

/-- With one entry for each key, an entry is what its key is looked up to. -/
theorem get_of_mem (hnodup : t.keys.Nodup) (h : e ∈ t) : t.get e.1 = some e.2 := by
  induction t with
  | nil => cases h
  | cons first rest ih =>
    have hcons : keys (first :: rest) = first.1 :: keys rest := rfl
    rw [hcons, List.nodup_cons] at hnodup
    rw [get_cons]
    rcases List.mem_cons.mp h with rfl | h
    · rw [if_pos rfl]
    · have hne : first.1 ≠ e.1 := by
        intro heq
        apply hnodup.1
        rw [heq]
        exact List.mem_map_of_mem h
      rw [if_neg hne]
      exact ih hnodup.2 h

theorem forall_mem_put {P : κ × ν → Prop} (h : ∀ e ∈ t, P e) (hnew : P (k, v)) :
    ∀ e ∈ t.put k v, P e :=
  List.forall_mem_cons.mpr ⟨hnew, fun e he => h e (List.mem_of_mem_filter he)⟩

theorem forall_mem_putAll {P : κ × ν → Prop} (h : ∀ e ∈ t, P e) (hnew : ∀ e ∈ entries, P e) :
    ∀ e ∈ t.putAll entries, P e := by
  induction entries generalizing t with
  | nil => exact h
  | cons head rest ih =>
    obtain ⟨hhead, hrest⟩ := List.forall_mem_cons.mp hnew
    exact ih (forall_mem_put h hhead) hrest

/-- What holds of all elements of a table of lists holds of those under one key. -/
theorem forall_mem_getD {α : Type} {t : Table κ (List α)} {P : α → Prop}
    (h : ∀ e ∈ t, ∀ a ∈ e.2, P a) (k : κ) : ∀ a ∈ (t.get k).getD [], P a := by
  cases hget : t.get k with
  | none => exact List.forall_mem_nil _
  | some l => exact h _ (mem_of_get hget)

omit [DecidableEq κ] in
theorem mem_of_last [LinearOrder κ] (h : t.last = some e) : e ∈ t :=
  List.argmax_mem h

/-- The entry of the greatest key is the last one. -/
theorem last_of_get [LinearOrder κ] (h : t.get k = some v) (hmax : ∀ e ∈ t, e.1 ≤ k) :
    t.last = some (k, v) := by
  unfold last
  induction t with
  | nil => cases h
  | cons e rest ih =>
    have hrest : ∀ e ∈ rest, e.1 ≤ k := (List.forall_mem_cons.mp hmax).2
    rw [List.argmax_cons]
    rw [get_cons] at h
    split at h
    · rename_i hkey
      obtain rfl := Option.some.inj h
      obtain rfl := hkey
      cases hlast : List.argmax (fun e : κ × ν => e.1) rest with
      | none => rfl
      | some e' =>
        have hle := hrest e' (List.argmax_mem hlast)
        exact if_neg (not_lt.mpr hle)
    · rename_i hne
      rw [ih h hrest]
      have hlt : e.1 < k := lt_of_le_of_ne (hmax e List.mem_cons_self) hne
      exact if_pos hlt

/-- The values under distinct keys. -/
theorem get_putAll_nil (h : (entries.map (·.1)).Nodup) :
    (putAll ([] : Table κ ν) entries).get k = some v ↔ (k, v) ∈ entries := by
  have hentry : ∀ v', (putAll ([] : Table κ ν) entries).get k = some v' → (k, v') ∈ entries :=
    fun v' hget => forall_mem_putAll (List.forall_mem_nil _) (fun _ he => he) _ (mem_of_get hget)
  constructor
  · exact hentry v
  · intro hmem
    have hkey : k ∈ (putAll ([] : Table κ ν) entries).keys := by
      rw [mem_keys_putAll]
      exact .inl (List.mem_map_of_mem hmem)
    obtain ⟨v', hget⟩ := mem_keys_iff_get.mp hkey
    have heq : (k, v') = (k, v) := List.inj_on_of_nodup_map h (hentry v' hget) hmem rfl
    rw [hget, (Prod.mk.inj heq).2]

/-- The entries in the order of their keys are a pass over all numbers below a bound. -/
theorem insertionSort_eq_range {t : Table Nat ν} (hnodup : t.keys.Nodup) {n : Nat}
    (hbound : ∀ k ∈ t.keys, k < n) :
    t.insertionSort (fun a b => a.1 ≤ b.1) =
      (List.range n).filterMap fun k => (t.get k).map fun v => (k, v) := by
  have hpass : ((List.range n).filterMap fun k => (t.get k).map fun v => (k, v)).Pairwise
      fun a b => a.1 < b.1 := by
    refine List.Pairwise.filterMap _ ?_ (List.pairwise_lt_range)
    intro k k' hlt e he e' he'
    obtain ⟨v, -, rfl⟩ := Option.map_eq_some_iff.mp he
    obtain ⟨v', -, rfl⟩ := Option.map_eq_some_iff.mp he'
    exact hlt
  have hmem : ∀ e, e ∈ (List.range n).filterMap (fun k => (t.get k).map fun v => (k, v)) ↔
    e ∈ t := by
    intro e
    simp only [List.mem_filterMap, List.mem_range, Option.map_eq_some_iff]
    constructor
    · rintro ⟨k, -, v, hget, rfl⟩
      exact mem_of_get hget
    · intro he
      exact ⟨e.1, hbound e.1 (List.mem_map_of_mem he), e.2, get_of_mem hnodup he, rfl⟩
  have hperm : (t.insertionSort fun a b => a.1 ≤ b.1).Perm
      ((List.range n).filterMap fun k => (t.get k).map fun v => (k, v)) := by
    refine (List.perm_insertionSort _ t).trans ?_
    rw [List.perm_ext_iff_of_nodup (List.Nodup.of_map _ hnodup)
      (hpass.imp fun hlt heq => absurd (congrArg Prod.fst heq) hlt.ne)]
    exact fun e => (hmem e).symm
  refine List.Perm.eq_of_pairwise ?_ (List.pairwise_insertionSort _ t) (hpass.imp le_of_lt) hperm
  intro a b ha hb hab hba
  have hin : a ∈ t := (List.perm_insertionSort _ t).mem_iff.mp ha
  exact List.inj_on_of_nodup_map hnodup hin ((hmem b).mp hb) (le_antisymm hab hba)

end Table

end Liquent.Misc
