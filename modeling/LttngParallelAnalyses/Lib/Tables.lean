import LttngParallelAnalyses.Lib.KeyedFold

/-! Two tables of records. A linear table is a list searched for the first record of a
key; a hash holds one value for a key, and its access operator creates a default value
where the key is absent. Both are read only through lookups and totals. -/

namespace LttngParallelAnalyses.Lib.Tables
open KeyedFold

variable {α K V A : Type*} [DecidableEq K]

/-! ## Linear tables -/

section Linear
variable (key : α → K)

def find (items : List α) (k : K) : Option α := items.find? (fun item => key item = k)

/-- Overwrite the first record of the same key, or append. -/
def put : List α → α → List α
  | [], a => [a]
  | b :: rest, a => if key b = key a then a :: rest else b :: put rest a

variable {key}

theorem find_nil (k : K) : find key ([] : List α) k = none := rfl

theorem key_of_find {items : List α} {k : K} {a : α} (found : find key items k = some a) :
    key a = k := by
  simpa using List.find?_some found

theorem mem_of_find {items : List α} {k : K} {a : α} (found : find key items k = some a) :
    a ∈ items :=
  List.mem_of_find?_eq_some found

theorem find_eq_none {items : List α} {k : K} :
    find key items k = none ↔ ∀ a ∈ items, key a ≠ k := by
  simp [find]

theorem find_put (items : List α) (a : α) (k : K) :
    find key (put key items a) k = if key a = k then some a else find key items k := by
  induction items with
  | nil => by_cases own : key a = k <;> simp [put, find, own]
  | cons b rest ih =>
    unfold find at ih ⊢
    by_cases same : key b = key a
    · by_cases own : key a = k <;> simp [put, same, own]
    · by_cases own : key b = k
      · have other : key a ≠ k := fun eq => same (own.trans eq.symm)
        rw [put, if_neg same, List.find?_cons_of_pos (by simpa using own), if_neg other,
          List.find?_cons_of_pos (by simpa using own)]
      · rw [put, if_neg same, List.find?_cons_of_neg (by simpa using own), ih,
          List.find?_cons_of_neg (by simpa using own)]

theorem mem_put {items : List α} {a b : α} (member : b ∈ put key items a) : b = a ∨ b ∈ items := by
  induction items with
  | nil => simpa [put] using member
  | cons c rest ih =>
    by_cases same : key c = key a
    · rw [put, if_pos same, List.mem_cons] at member
      exact member.imp_right (List.mem_cons_of_mem c)
    · rw [put, if_neg same, List.mem_cons] at member
      rcases member with rfl | later
      · exact Or.inr List.mem_cons_self
      · exact (ih later).imp_right (List.mem_cons_of_mem c)

theorem nodup_put {items : List α} (a : α) (distinct : (items.map key).Nodup) :
    ((put key items a).map key).Nodup := by
  induction items with
  | nil => simp [put]
  | cons b rest ih =>
    rw [List.map_cons, List.nodup_cons] at distinct
    by_cases same : key b = key a
    · rw [put, if_pos same, List.map_cons, List.nodup_cons, ← same]
      exact distinct
    · rw [put, if_neg same, List.map_cons, List.nodup_cons]
      refine ⟨?_, ih distinct.2⟩
      intro present
      obtain ⟨c, member, eq⟩ := List.mem_map.mp present
      rcases mem_put member with rfl | old
      · exact same eq.symm
      · exact distinct.1 (List.mem_map.mpr ⟨c, old, eq⟩)

/-- A total changes by what the overwritten record counted and what the new one counts. -/
theorem sum_put [AddCommGroup A] (size : α → A) (items : List α) (a : α) :
    ((put key items a).map size).sum =
      (items.map size).sum - (find key items (key a)).elim 0 size + size a := by
  induction items with
  | nil => simp [put, find]
  | cons b rest ih =>
    by_cases same : key b = key a
    · simp [put, find, same, add_comm]
    · rw [put, if_neg same, List.map_cons, List.sum_cons, ih, find, find,
        List.find?_cons_of_neg (by simpa using same), List.map_cons, List.sum_cons]
      abel

/-- With distinct keys every record is the one found under its key. -/
theorem find_of_mem {items : List α} {a : α} (distinct : (items.map key).Nodup)
    (member : a ∈ items) : find key items (key a) = some a := by
  induction items with
  | nil => cases member
  | cons b rest ih =>
    rw [List.map_cons, List.nodup_cons] at distinct
    rcases List.mem_cons.mp member with rfl | later
    · simp [find]
    · have other : key b ≠ key a := fun eq => distinct.1 (List.mem_map.mpr ⟨a, later, eq.symm⟩)
      rw [find, List.find?_cons_of_neg (by simpa using other)]
      exact ih distinct.2 later

theorem find_eq_some {items : List α} (distinct : (items.map key).Nodup) {k : K} {a : α} :
    find key items k = some a ↔ a ∈ items ∧ key a = k := by
  constructor
  · exact fun found => ⟨mem_of_find found, key_of_find found⟩
  · intro found
    obtain ⟨member, rfl⟩ := found
    exact find_of_mem distinct member

/-- A sum over the records is a sum over any set of keys that holds all of theirs. -/
theorem sum_eq_sum_find [AddCommMonoid A] (size : α → A) {items : List α}
    (distinct : (items.map key).Nodup) (keys : Finset K) (known : ∀ a ∈ items, key a ∈ keys) :
    (items.map size).sum = ∑ k ∈ keys, (find key items k).elim 0 size := by
  induction items with
  | nil => simp [find]
  | cons b rest ih =>
    rw [List.map_cons, List.nodup_cons] at distinct
    have split : ∀ k, (find key (b :: rest) k).elim 0 size =
        (if key b = k then size b else 0) + (find key rest k).elim 0 size := by
      intro k
      by_cases own : key b = k
      · have absent : find key rest k = none := by
          rw [find_eq_none]
          intro a member eq
          exact distinct.1 (List.mem_map.mpr ⟨a, member, eq.trans own.symm⟩)
        rw [absent, find, List.find?_cons_of_pos (by simpa using own)]
        simp [own]
      · rw [find, List.find?_cons_of_neg (by simpa using own), if_neg own, zero_add, find]
    have later := ih distinct.2 (fun a member => known a (List.mem_cons_of_mem b member))
    simp only [split, Finset.sum_add_distrib]
    rw [← later, Finset.sum_ite_eq, if_pos (known b List.mem_cons_self), List.map_cons,
      List.sum_cons]

theorem find_perm {first second : List α} (perm : first.Perm second)
    (distinct : (first.map key).Nodup) (k : K) : find key first k = find key second k := by
  have others : (second.map key).Nodup := (perm.map key).nodup_iff.mp distinct
  cases found : find key second k with
  | none =>
    rw [find_eq_none] at found ⊢
    exact fun a member => found a (perm.mem_iff.mp member)
  | some a =>
    rw [find_eq_some others] at found
    rw [find_eq_some distinct]
    exact ⟨perm.mem_iff.mpr found.1, found.2⟩

/-- Mapping the records without touching their keys maps what is found. -/
theorem find_map (f : α → α) (keeps : ∀ a, key (f a) = key a) (items : List α) (k : K) :
    find key (items.map f) k = (find key items k).map f := by
  simp only [find, List.find?_map]
  congr 2
  funext a
  simp [keeps]

/-- Two tables with distinct keys that agree on a value at every key hold the same pairs of
key and value. -/
theorem map_perm_of_find {β : Type*} (value : α → β) {first second : List α}
    (distinct : (first.map key).Nodup) (distinct' : (second.map key).Nodup)
    (same : ∀ k, (find key first k).map value = (find key second k).map value) :
    (first.map (fun a => (key a, value a))).Perm (second.map (fun a => (key a, value a))) := by
  have nodup : ∀ items : List α, (items.map key).Nodup →
      (items.map (fun a => (key a, value a))).Nodup := by
    intro items keys
    apply List.Nodup.of_map Prod.fst
    simpa [Function.comp_def] using keys
  have transfer : ∀ items others : List α, (items.map key).Nodup →
      (∀ k, (find key items k).map value = (find key others k).map value) →
      ∀ pair ∈ items.map (fun a => (key a, value a)),
        pair ∈ others.map (fun a => (key a, value a)) := by
    intro items others keys agree pair member
    obtain ⟨a, inside, rfl⟩ := List.mem_map.mp member
    have found := agree (key a)
    rw [find_of_mem keys inside, Option.map_some, eq_comm, Option.map_eq_some_iff] at found
    obtain ⟨b, there, eq⟩ := found
    exact List.mem_map.mpr ⟨b, mem_of_find there, by rw [key_of_find there, eq]⟩
  rw [List.perm_ext_iff_of_nodup (nodup first distinct) (nodup second distinct')]
  intro pair
  exact ⟨transfer first second distinct same pair,
    transfer second first distinct' (fun k => (same k).symm) pair⟩

end Linear

/-! ## Hashes -/

/-- A map with one value for a key. The order of its entries has no meaning. -/
abbrev Hash (K V : Type*) := AList (fun _ : K => V)

namespace Hash

/-- `T &x = hash[k]` and an update of `x`: an absent key first gets a default value. -/
def modify [Inhabited V] (hash : Hash K V) (k : K) (f : V → V) : Hash K V :=
  AList.insert k (f ((hash.lookup k).getD default)) hash

theorem lookup_insert_if (hash : Hash K V) (k k' : K) (v : V) :
    AList.lookup k' (AList.insert k v hash) = if k = k' then some v else hash.lookup k' := by
  by_cases own : k = k'
  · subst own
    rw [if_pos rfl, AList.lookup_insert]
  · rw [if_neg own, AList.lookup_insert_ne (Ne.symm own)]

theorem lookup_modify [Inhabited V] (hash : Hash K V) (k k' : K) (f : V → V) :
    (modify hash k f).lookup k' =
      if k = k' then some (f ((hash.lookup k).getD default)) else hash.lookup k' :=
  lookup_insert_if ..

/-- The sum of a measure over all values. -/
def total [AddCommMonoid A] (size : V → A) (hash : Hash K V) : A :=
  (hash.entries.map (fun entry => size entry.2)).sum

private theorem sum_kerase [AddCommGroup A] (size : V → A) (entries : List (Sigma (fun _ : K => V)))
    (k : K) :
    ((entries.kerase k).map (fun entry => size entry.2)).sum =
      (entries.map (fun entry => size entry.2)).sum - (entries.dlookup k).elim 0 size := by
  induction entries with
  | nil => simp
  | cons entry rest ih =>
    obtain ⟨k', v⟩ := entry
    by_cases own : k = k'
    · subst own
      simp
    · rw [List.kerase_cons_ne own, List.dlookup_cons_ne _ _ own, List.map_cons, List.sum_cons, ih,
        List.map_cons, List.sum_cons, add_sub_assoc]

theorem total_insert [AddCommGroup A] (size : V → A) (hash : Hash K V) (k : K) (v : V) :
    total size (AList.insert k v hash) =
      total size hash - (hash.lookup k).elim 0 size + size v := by
  rw [total, AList.entries_insert, List.map_cons, List.sum_cons, sum_kerase, add_comm]
  rfl

/-- Where the new value counts `d` more than the old one, so does the total. -/
theorem total_modify [AddCommGroup A] [Inhabited V] (size : V → A) (hash : Hash K V) (k : K)
    (f : V → V) (d : A) (fresh : size default = 0) (adds : ∀ v, size (f v) = size v + d) :
    total size (modify hash k f) = total size hash + d := by
  rw [modify, total_insert, adds]
  cases hash.lookup k with
  | none => simp [fresh]
  | some v =>
    rw [Option.elim_some, Option.getD_some]
    abel

section Bills
variable [Inhabited V]

/-- Each bill names a key and an amount that its value is charged. -/
def settle (charge : A → V → V) (hash : Hash K V) (bills : List (K × A)) : Hash K V :=
  bills.foldl (fun hash bill => modify hash bill.1 (charge bill.2)) hash

theorem settle_append (charge : A → V → V) (hash : Hash K V) (first second : List (K × A)) :
    settle charge hash (first ++ second) = settle charge (settle charge hash first) second :=
  List.foldl_append ..

variable [AddCommGroup A]

def owed (k : K) (bills : List (K × A)) : A :=
  ((bills.filter (fun bill => bill.1 = k)).map (·.2)).sum

theorem owed_cons (k : K) (bill : K × A) (bills : List (K × A)) :
    owed k (bill :: bills) = (if bill.1 = k then bill.2 else 0) + owed k bills := by
  by_cases own : bill.1 = k <;> simp [owed, own]

theorem owed_eq_zero {k : K} {bills : List (K × A)} (none_named : ∀ bill ∈ bills, bill.1 ≠ k) :
    owed k bills = 0 := by
  have none_left : bills.filter (fun bill => bill.1 = k) = [] := by
    simpa [List.filter_eq_nil_iff] using none_named
  rw [owed, none_left, List.map_nil, List.sum_nil]

/-- A key that some bill names is charged all that it owes; the others are left alone. -/
theorem lookup_settle (charge : A → V → V)
    (charge_add : ∀ a b v, charge b (charge a v) = charge (a + b) v) (hash : Hash K V)
    (bills : List (K × A)) (k : K) :
    (settle charge hash bills).lookup k =
      if ∃ bill ∈ bills, bill.1 = k then
        some (charge (owed k bills) ((hash.lookup k).getD default))
      else hash.lookup k := by
  induction bills generalizing hash with
  | nil => simp [settle]
  | cons bill rest ih =>
    rw [settle, List.foldl_cons, ← settle, ih, lookup_modify, owed_cons]
    by_cases here : bill.1 = k
    · subst here
      by_cases later : ∃ other ∈ rest, other.1 = bill.1
      · simp [later, charge_add]
      · have zero : owed bill.1 rest = 0 :=
          owed_eq_zero (fun other member same => later ⟨other, member, same⟩)
        simp [later, zero]
    · have named : (∃ other ∈ bill :: rest, other.1 = k) ↔ ∃ other ∈ rest, other.1 = k := by
        simp [here]
      simp only [named, if_neg here, zero_add]

theorem total_settle (charge : A → V → V) (size : V → A) (fresh : size default = 0)
    (adds : ∀ a v, size (charge a v) = size v + a) (hash : Hash K V) (bills : List (K × A)) :
    total size (settle charge hash bills) = total size hash + (bills.map (·.2)).sum := by
  induction bills generalizing hash with
  | nil => simp [settle]
  | cons bill rest ih =>
    rw [settle, List.foldl_cons, ← settle, ih, total_modify size hash bill.1 _ bill.2 fresh
      (adds bill.2), List.map_cons, List.sum_cons, add_assoc]

end Bills

/-- Entering every entry of `other`, combined by `join` with what is there. -/
def absorb (join : Option V → V → V) (hash other : Hash K V) : Hash K V :=
  other.entries.foldl
    (fun hash entry => AList.insert entry.1 (join (hash.lookup entry.1) entry.2) hash) hash

private def absorption (join : Option V → V → V) :
    Keyed (Hash K V) (Sigma (fun _ : K => V)) K (Option V) where
  step hash entry := AList.insert entry.1 (join (hash.lookup entry.1) entry.2) hash
  key entry := some entry.1
  view hash k := hash.lookup k
  act found entry := some (join found entry.2)
  view_step hash entry k := by
    rw [lookup_insert_if]
    by_cases own : entry.1 = k
    · subst own
      simp
    · simp [own]

theorem lookup_absorb (join : Option V → V → V) (hash other : Hash K V) (k : K) :
    (absorb join hash other).lookup k =
      (other.lookup k).elim (hash.lookup k) (fun v => some (join (hash.lookup k) v)) := by
  have run := (absorption join).view_run_distinct (fun entry => entry.1) (fun _ => rfl)
    hash other.entries other.nodupKeys k
  have found : other.entries.find? (fun entry => entry.1 = k) =
      (other.lookup k).map (fun v => (⟨k, v⟩ : Sigma (fun _ : K => V))) := by
    rw [AList.lookup]
    induction other.entries with
    | nil => rfl
    | cons entry rest ih =>
      obtain ⟨k', v⟩ := entry
      by_cases own : k' = k
      · subst own
        simp
      · rw [List.find?_cons_of_neg (by simpa using own), List.dlookup_cons_ne _ _ (Ne.symm own)]
        exact ih
  rw [found] at run
  refine Eq.trans run ?_
  cases other.lookup k <;> rfl

theorem total_absorb [AddCommGroup A] (size : V → A) (join : Option V → V → V)
    (adds : ∀ found v, size (join found v) = found.elim 0 size + size v) (hash other : Hash K V) :
    total size (absorb join hash other) = total size hash + total size other := by
  rw [absorb, total.eq_def size other]
  induction other.entries generalizing hash with
  | nil => simp
  | cons entry rest ih =>
    rw [List.foldl_cons, ih, total_insert, adds, List.map_cons, List.sum_cons]
    abel

/-- Two tables that show the same at every key hold the same, in some order. -/
theorem values_perm {W : Type*} (f : V → W) {hash other : Hash K V}
    (same : ∀ k, (hash.lookup k).map f = (other.lookup k).map f) :
    (hash.entries.map (fun entry => f entry.2)).Perm
      (other.entries.map (fun entry => f entry.2)) := by
  let seen : Sigma (fun _ : K => V) → Sigma (fun _ : K => W) := Sigma.map id (fun _ => f)
  have shown : ∀ table : Hash K V, (table.entries.map seen).NodupKeys := by
    intro table
    rw [List.NodupKeys, List.keys, List.map_map]
    exact table.nodupKeys
  have perm : (hash.entries.map seen).Perm (other.entries.map seen) := by
    apply List.lookup_ext (shown hash) (shown other)
    intro k w
    have agree := same k
    unfold AList.lookup at agree
    rw [List.dlookup_map₂, List.dlookup_map₂, agree]
  have values := perm.map Sigma.snd
  rw [List.map_map, List.map_map] at values
  exact values

end Hash

end LttngParallelAnalyses.Lib.Tables
