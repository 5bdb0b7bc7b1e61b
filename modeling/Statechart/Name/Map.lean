import Statechart.Name.Basic

namespace Statechart

-- A map from names that remembers the order in which the names were first inserted.
@[ext]
structure NameMap (α : Type u) where
  entries : List (Name × α)
  nodup : (entries.map Prod.fst).Nodup

namespace NameMap

variable {α : Type u} {β : Type v}

def empty : NameMap α := ⟨[], .nil⟩

instance : EmptyCollection (NameMap α) := ⟨empty⟩

instance : Inhabited (NameMap α) := ⟨∅⟩

def keys (m : NameMap α) : List Name := m.entries.map Prod.fst

def values (m : NameMap α) : List α := m.entries.map Prod.snd

def size (m : NameMap α) : Nat := m.entries.length

def isEmpty (m : NameMap α) : Bool := m.entries.isEmpty

instance : Membership Name (NameMap α) := ⟨fun m n => n ∈ m.keys⟩

instance {n : Name} {m : NameMap α} : Decidable (n ∈ m) :=
  inferInstanceAs (Decidable (n ∈ m.keys))

def get? (m : NameMap α) (n : Name) : Option α := m.entries.lookup n

theorem mem_def {n : Name} {m : NameMap α} : n ∈ m ↔ n ∈ m.keys := .rfl

theorem keys_nodup (m : NameMap α) : m.keys.Nodup := m.nodup

@[simp]
theorem keys_empty : (∅ : NameMap α).keys = [] := rfl

@[simp]
theorem get?_empty (n : Name) : (∅ : NameMap α).get? n = none := rfl

theorem lookup_cons_eq_ite (e : Name × α) (es : List (Name × α)) (n : Name) :
    (e :: es).lookup n = if n = e.1 then some e.2 else es.lookup n := by
  by_cases h : n = e.1
  case pos => rw [List.lookup_cons, if_pos h, beq_iff_eq.mpr h]
  case neg => rw [List.lookup_cons, if_neg h, beq_false_of_ne h]

theorem lookup_eq_some_iff_mem {es : List (Name × α)} (h : (es.map Prod.fst).Nodup) {n : Name}
    {a : α} : es.lookup n = some a ↔ (n, a) ∈ es := by
  induction es with
  | nil => simp
  | cons e es ih =>
    have ⟨hn, hs⟩ := List.nodup_cons.mp h
    have := ih hs
    by_cases he : n = e.1
    case pos =>
      have : (n, a) ∉ es := fun hm => hn (he ▸ List.mem_map_of_mem hm)
      grind
    case neg => grind

theorem get?_eq_some_iff {m : NameMap α} {n : Name} {a : α} :
    m.get? n = some a ↔ (n, a) ∈ m.entries :=
  lookup_eq_some_iff_mem m.nodup

theorem mem_iff_get?_isSome {m : NameMap α} {n : Name} : n ∈ m ↔ (m.get? n).isSome := by
  simp only [mem_def, keys, List.mem_map, Option.isSome_iff_exists, get?_eq_some_iff]
  grind

theorem get?_eq_none_iff {m : NameMap α} {n : Name} : m.get? n = none ↔ n ∉ m := by
  simp [mem_iff_get?_isSome]

theorem ext_get? {m m' : NameMap α} (hk : m.keys = m'.keys) (hg : ∀ n, m.get? n = m'.get? n) :
    m = m' := by
  have h (m : NameMap α) :
      m.entries.map (fun e => (e.1, some e.2)) = m.keys.map fun n => (n, m.get? n) := by
    rw [keys, List.map_map]
    refine List.map_congr_left fun e he => ?_
    rw [Function.comp_apply, get?_eq_some_iff.mpr he]
  refine NameMap.ext (List.map_inj_right (f := fun e : Name × α => (e.1, some e.2)) ?_ |>.mp ?_)
  · grind
  · rw [h, h, hk]
    exact List.map_congr_left fun n _ => by rw [hg]

section Modify

def modify (m : NameMap α) (n : Name) (f : α → α) : NameMap α where
  entries := m.entries.map fun e => if e.1 = n then (e.1, f e.2) else e
  nodup := by
    have h : ∀ e : Name × α, (if e.1 = n then (e.1, f e.2) else e).1 = e.1 := by grind
    simpa [Function.comp_def, h] using m.nodup

@[simp]
theorem keys_modify (m : NameMap α) (n : Name) (f : α → α) : (m.modify n f).keys = m.keys := by
  have h : ∀ e : Name × α, (if e.1 = n then (e.1, f e.2) else e).1 = e.1 := by grind
  simp [keys, modify, Function.comp_def, h]

@[simp]
theorem mem_modify {m : NameMap α} {n k : Name} {f : α → α} : k ∈ m.modify n f ↔ k ∈ m := by
  simp [mem_def]

theorem get?_modify (m : NameMap α) (n k : Name) (f : α → α) :
    (m.modify n f).get? k = if k = n then (m.get? k).map f else m.get? k := by
  simp only [get?, modify]
  induction m.entries with
  | nil => simp
  | cons e es ih =>
    rw [List.map_cons, lookup_cons_eq_ite, lookup_cons_eq_ite, ih]
    split <;> split <;> simp_all

end Modify

section Insert

def insert (m : NameMap α) (n : Name) (a : α) : NameMap α :=
  if h : n ∈ m then m.modify n fun _ => a
  else ⟨m.entries ++ [(n, a)], by
    simp only [mem_def, keys] at h
    have := m.nodup
    grind [List.nodup_append]⟩

theorem keys_insert (m : NameMap α) (n : Name) (a : α) :
    (m.insert n a).keys = if n ∈ m then m.keys else m.keys ++ [n] := by
  unfold insert
  split
  · exact keys_modify ..
  · simp [keys]

theorem entries_insert_of_not_mem {m : NameMap α} {n : Name} {a : α} (h : n ∉ m) :
    (m.insert n a).entries = m.entries ++ [(n, a)] := by
  rw [insert, dif_neg h]

@[simp]
theorem mem_insert {m : NameMap α} {n k : Name} {a : α} : k ∈ m.insert n a ↔ k ∈ m ∨ k = n := by
  simp only [mem_def, keys_insert]
  grind [mem_def]

theorem get?_insert (m : NameMap α) (n k : Name) (a : α) :
    (m.insert n a).get? k = if k = n then some a else m.get? k := by
  unfold insert
  split
  case isTrue h =>
    rw [get?_modify]
    have ⟨b, hb⟩ := Option.isSome_iff_exists.mp (mem_iff_get?_isSome.mp h)
    grind
  case isFalse h =>
    have h := get?_eq_none_iff.mpr h
    simp only [get?] at h ⊢
    rw [List.lookup_append]
    grind

def ofList (es : List (Name × α)) : NameMap α :=
  es.foldl (fun m e => m.insert e.1 e.2) ∅

theorem get?_foldl_insert {m : NameMap α} {es : List (Name × α)} (h : (es.map Prod.fst).Nodup)
    (n : Name) :
    (es.foldl (fun m e => m.insert e.1 e.2) m).get? n = (es.lookup n).or (m.get? n) := by
  induction es generalizing m with
  | nil => rfl
  | cons e es ih =>
    have ⟨hn, hs⟩ := List.nodup_cons.mp h
    rw [List.foldl_cons, ih hs, get?_insert]
    by_cases he : n = e.1
    case pos =>
      have : es.lookup n = none := List.lookup_eq_none_iff.mpr (by grind)
      grind
    case neg => grind

theorem get?_ofList {es : List (Name × α)} (h : (es.map Prod.fst).Nodup) {n : Name} {a : α} :
    (ofList es).get? n = some a ↔ (n, a) ∈ es := by
  simp [ofList, get?_foldl_insert h, lookup_eq_some_iff_mem h]

end Insert

section Erase

def erase (m : NameMap α) (n : Name) : NameMap α where
  entries := m.entries.filter (·.1 ≠ n)
  nodup := m.nodup.sublist (List.filter_sublist.map _)

theorem get?_erase (m : NameMap α) (n k : Name) :
    (m.erase n).get? k = if k = n then none else m.get? k := by
  simp only [get?, erase]
  induction m.entries with
  | nil => simp
  | cons e es ih => grind

end Erase

section Map

def map (f : Name → α → β) (m : NameMap α) : NameMap β where
  entries := m.entries.map fun e => (e.1, f e.1 e.2)
  nodup := by simpa [Function.comp_def] using m.nodup

@[simp]
theorem keys_map (m : NameMap α) (f : Name → α → β) : (m.map f).keys = m.keys := by
  simp [keys, map, Function.comp_def]

theorem get?_map (m : NameMap α) (f : Name → α → β) (n : Name) :
    (m.map f).get? n = (m.get? n).map (f n) := by
  simp only [get?, map]
  induction m.entries with
  | nil => simp
  | cons e es ih => grind

def filter (p : α → Bool) (m : NameMap α) : NameMap α where
  entries := m.entries.filter (p ·.2)
  nodup := m.nodup.sublist (List.filter_sublist.map _)

def ofNames (ns : List Name) (f : Name → α) : NameMap α where
  entries := (distinct ns).map fun n => (n, f n)
  nodup := by simpa [Function.comp_def] using nodup_distinct ns

@[simp]
theorem keys_ofNames (ns : List Name) (f : Name → α) : (ofNames ns f).keys = distinct ns := by
  simp [keys, ofNames, Function.comp_def]

theorem get?_ofNames (ns : List Name) (f : Name → α) (n : Name) :
    (ofNames ns f).get? n = if n ∈ ns then some (f n) else none := by
  split
  case isTrue h =>
    rw [get?_eq_some_iff]
    exact List.mem_map.mpr ⟨n, mem_distinct.mpr h, rfl⟩
  case isFalse h => simpa [get?_eq_none_iff, mem_def] using h

end Map

section Reorder

def arrange : List Name → List (Name × α) → List (Name × α)
  | [], es => es
  | n :: ns, es =>
    match es.lookup n with
    | some a => (n, a) :: arrange ns (es.filter (·.1 ≠ n))
    | none   => arrange ns es

theorem perm_arrange {ns : List Name} {es : List (Name × α)} (h : (es.map Prod.fst).Nodup) :
    (arrange ns es).Perm es := by
  induction ns generalizing es with
  | nil => exact .refl _
  | cons n ns ih =>
    unfold arrange
    split
    case h_2 => exact ih h
    case h_1 a ha =>
      refine (List.Perm.cons _ (ih (h.sublist (List.filter_sublist.map _)))).trans ?_
      have ⟨l₁, l₂, he, _⟩ := List.lookup_eq_some_iff.mp ha
      subst he
      have h₁ : l₁.filter (·.1 ≠ n) = l₁ := List.filter_eq_self.mpr (by grind)
      have h₂ : l₂.filter (·.1 ≠ n) = l₂ := List.filter_eq_self.mpr (by grind)
      simp only [List.filter_append, List.filter_cons, h₁, h₂]
      simpa using List.perm_middle.symm

theorem keys_arrange {ns : List Name} {es : List (Name × α)} (h : ns.Nodup) :
    (arrange ns es).map Prod.fst =
      ns.filter (· ∈ es.map Prod.fst) ++ (es.map Prod.fst).filter (· ∉ ns) := by
  induction ns generalizing es with
  | nil => exact (List.filter_eq_self.mpr (by simp)).symm
  | cons n ns ih =>
    have ⟨hn, hs⟩ := List.nodup_cons.mp h
    have hf : (es.filter (·.1 ≠ n)).map Prod.fst = (es.map Prod.fst).filter (· ≠ n) := by
      rw [List.filter_map]
      rfl
    unfold arrange
    split
    case h_1 a ha =>
      have hm : n ∈ es.map Prod.fst := by
        have ⟨l₁, l₂, he, _⟩ := List.lookup_eq_some_iff.mp ha
        simp [he]
      have h₁ : ns.filter (· ∈ (es.map Prod.fst).filter (· ≠ n)) = ns.filter (· ∈ es.map Prod.fst) :=
        List.filter_congr (by grind)
      have h₂ : ((es.map Prod.fst).filter (· ≠ n)).filter (· ∉ ns) =
          (es.map Prod.fst).filter (· ∉ n :: ns) := by
        rw [List.filter_filter]
        exact List.filter_congr (by grind)
      rw [List.map_cons, ih hs, hf, h₁, h₂, List.filter_cons_of_pos (by simpa using hm),
        List.cons_append]
    case h_2 ha =>
      have hm : n ∉ es.map Prod.fst := by
        have := List.lookup_eq_none_iff.mp ha
        grind
      have h₂ : (es.map Prod.fst).filter (· ∉ ns) = (es.map Prod.fst).filter (· ∉ n :: ns) :=
        List.filter_congr (by grind)
      rw [ih hs, h₂, List.filter_cons_of_neg (by simpa using hm)]

-- Puts the names of `order` first and in that order. Names without an entry are passed over, and
-- the entries that `order` does not name keep their order behind those it does.
def reorder (m : NameMap α) (order : List Name) : NameMap α where
  entries := arrange order m.entries
  nodup := ((perm_arrange m.nodup).map _).nodup_iff.mpr m.nodup

theorem perm_reorder (m : NameMap α) (order : List Name) :
    (m.reorder order).entries.Perm m.entries :=
  perm_arrange m.nodup

theorem get?_reorder (m : NameMap α) (order : List Name) (n : Name) :
    (m.reorder order).get? n = m.get? n := by
  ext a
  simp only [get?_eq_some_iff, (m.perm_reorder order).mem_iff]

theorem mem_reorder {m : NameMap α} {order : List Name} {n : Name} :
    n ∈ m.reorder order ↔ n ∈ m := by
  simp only [mem_iff_get?_isSome, get?_reorder]

theorem keys_reorder {m : NameMap α} {order : List Name} (h : order.Nodup) :
    (m.reorder order).keys = order.filter (· ∈ m) ++ m.keys.filter (· ∉ order) :=
  keys_arrange h

theorem reorder_reorder {m : NameMap α} {order : List Name} (h : order.Nodup) :
    (m.reorder order).reorder order = m.reorder order := by
  refine ext_get? ?_ fun n => get?_reorder ..
  have h₁ : (order.filter (· ∈ m)).filter (· ∉ order) = [] :=
    List.filter_eq_nil_iff.mpr (by grind)
  rw [keys_reorder h]
  simp only [mem_reorder]
  rw [keys_reorder h, List.filter_append, h₁, List.filter_filter]
  simp

end Reorder

end NameMap

end Statechart
