import Afs.Table.Database

/-!
# Pointers against lists

The pointers of the table spell the lists of the table as a map from buckets to chains, on blocks that
no two chains share. Every `put` keeps it so, follows no null pointer and ends, and so the walks of
`get` and `dump` see what the lists have.
-/

namespace Afs

open Posix Linked

/-- A key that is not in the first part of a chain. -/
theorem putChain_append_cons {key : Int64} {l : List HashNode} (h : key ∉ l.map (·.key)) (n : HashNode)
    (hn : key = n.key) (rest : List HashNode) (value : Int64) :
    putChain key value (l ++ n :: rest) = l ++ { n with value } :: rest := by
  induction l with
  | nil => simp only [List.nil_append, putChain, hn, if_true]
  | cons m l ih =>
      rw [List.map_cons, List.mem_cons, not_or] at h
      simp only [List.cons_append, putChain, h.1, if_false, ih h.2]

theorem getChain_append_cons {key : Int64} {l : List HashNode} (h : key ∉ l.map (·.key)) (n : HashNode)
    (hn : key = n.key) (rest : List HashNode) : getChain key (l ++ n :: rest) = n.value := by
  induction l with
  | nil => simp only [List.nil_append, getChain, hn, if_true]
  | cons m l ih =>
      rw [List.map_cons, List.mem_cons, not_or] at h
      simp only [List.cons_append, getChain, h.1, if_false, ih h.2]

theorem getChain_of_not_mem {key : Int64} {l : List HashNode} (h : key ∉ l.map (·.key)) :
    getChain key l = -1 := by
  induction l with
  | nil => rfl
  | cons m l ih =>
      rw [List.map_cons, List.mem_cons, not_or] at h
      simp only [getChain, h.1, if_false, ih h.2]

namespace Chains

variable {t t' : Chains} {l : Fin HTABLESIZE → List (Nat × HashNode)} {ht : HashTable}

/-- The pointers spell the table, on the given addresses. -/
structure Spells (t : Chains) (l : Fin HTABLESIZE → List (Nat × HashNode)) (ht : HashTable) : Prop where
  /-- The walk along a chain, which ends. -/
  walk : ∀ i, t.heap.Spells (t.ht i) (l i)
  /-- No two chains share a block. -/
  apart : ∀ i j, i ≠ j → List.Disjoint ((l i).map Prod.fst) ((l j).map Prod.fst)
  /-- The contents. -/
  chain : ∀ i, (l i).map Prod.snd = ht.chain i

theorem Spells.initHt (t : Chains) : t.initHt.Spells (fun _ => []) Afs.initHt :=
  ⟨fun _ => trivial, fun _ _ _ => List.disjoint_nil_left _, fun _ => rfl⟩

/-- One chain is replaced by one whose addresses are its own or a new one. -/
private theorem Spells.replace (h : t.Spells l ht) {b : Fin HTABLESIZE} {r : List (Nat × HashNode)}
    {chain : List HashNode} (hself : t'.heap.Spells (t'.ht b) r)
    (hother : ∀ i, i ≠ b → t'.heap.Spells (t'.ht i) (l i))
    (haddr : ∀ a ∈ r.map Prod.fst, a ∈ (l b).map Prod.fst ∨ t.heap.fresh ≤ a)
    (hr : r.map Prod.snd = chain) :
    t'.Spells (Function.update l b r) ⟨Function.update ht.chain b chain⟩ := by
  have hdisjoint : ∀ j, j ≠ b → List.Disjoint (r.map Prod.fst) ((l j).map Prod.fst) := by
    intro j hj a ha hja
    rcases haddr a ha with hold | hnew
    · exact h.apart b j (Ne.symm hj) hold hja
    · have hlt := (h.walk j).lt hja
      omega
  refine ⟨fun i => ?_, fun i j hij => ?_, fun i => ?_⟩
  · by_cases hi : i = b
    · subst hi
      rwa [Function.update_self]
    · rw [Function.update_of_ne hi]
      exact hother i hi
  · by_cases hi : i = b
    · subst hi
      rw [Function.update_self, Function.update_of_ne (Ne.symm hij)]
      exact hdisjoint j (Ne.symm hij)
    · rw [Function.update_of_ne hi]
      by_cases hj : j = b
      · subst hj
        rw [Function.update_self]
        exact (hdisjoint i hi).symm
      · rw [Function.update_of_ne hj]
        exact h.apart i j hij
  · by_cases hi : i = b
    · subst hi
      simpa only [Function.update_self] using hr
    · simpa only [Function.update_of_ne hi] using h.chain i

/-- The loop of `get` and `put` ends, behind the last node or at the first one with the key. -/
theorem Spells.find (h : t.Spells l ht) (key : Int64) (i : Fin HTABLESIZE) :
    key ∉ (ht.chain i).map (·.key) ∧ t.walk key (t.ht i) = some (Heap.last none (l i), none) ∨
      ∃ l₁ a n l₂ prev, l i = l₁ ++ (a, n) :: l₂ ∧ key ∉ (l₁.map Prod.snd).map (·.key) ∧ key = n.key ∧
        t.walk key (t.ht i) = some (prev, some a) := by
  have hkeys : ∀ r : List (Nat × HashNode), (∀ z ∈ r, decide (key = z.2.key) = false) →
      key ∉ (r.map Prod.snd).map (·.key) := by
    intro r hr hmem
    rw [List.map_map] at hmem
    obtain ⟨z, hz, rfl⟩ := List.mem_map.mp hmem
    exact absurd (hr z hz) (by simp)
  rcases (h.walk i).find (fun n => decide (key = n.key)) (Nat.lt_succ_of_le (h.walk i).length_le) none with
    ⟨hall, hfind⟩ | ⟨l₁, a, n, l₂, prev, hl, hall, hn, hfind⟩
  · left
    rw [← h.chain i]
    exact ⟨hkeys _ hall, hfind⟩
  · exact Or.inr ⟨l₁, a, n, l₂, prev, hl, hkeys _ hall, of_decide_eq_true hn, hfind⟩

/-- `get` sees the value that the lists have. -/
theorem Spells.get (h : t.Spells l ht) (filename : Path) : t.get filename = some (ht.get filename) := by
  unfold Chains.get HashTable.get
  simp only
  rcases h.find (hashKey filename) (bucket (hashKey filename)) with
    ⟨hnot, hfind⟩ | ⟨l₁, a, n, l₂, prev, hl, hnot, hn, hfind⟩
  · rw [hfind, getChain_of_not_mem hnot]
    rfl
  · have hwalk := h.walk (bucket (hashKey filename))
    rw [hl] at hwalk
    obtain ⟨-, next, hcell, -⟩ := Heap.spells_cons.mp hwalk.suffix
    rw [hfind, ← h.chain, hl, List.map_append, List.map_cons, getChain_append_cons hnot n hn]
    simp only [Option.bind_some, hcell, Option.map_some]

/-- `put` on an empty chain. -/
private theorem Spells.put_first (h : t.Spells l ht) (key value : Int64) (hhead : t.ht (bucket key) = none) :
    ∃ t' l', t.put key value = some t' ∧ t'.Spells l' (ht.put key value) := by
  have hnil : l (bucket key) = [] := by
    have hwalk := h.walk (bucket key)
    rw [hhead] at hwalk
    exact hwalk.unique (Heap.spells_nil.mpr rfl)
  have hchain : ht.chain (bucket key) = [] := by rw [← h.chain, hnil, List.map_nil]
  have hput : t.put key value = some {
      ht := Function.update t.ht (bucket key) (some t.heap.fresh)
      heap := t.heap.alloc ⟨key, value⟩ } := by
    simp only [Chains.put, hhead]
  refine ⟨_, _, hput, h.replace (r := [(t.heap.fresh, ⟨key, value⟩)]) ?_ (fun i hi => ?_)
    (fun a ha => Or.inr ?_) ?_⟩
  · simp only [Function.update_self]
    exact Heap.spells_alloc _ _
  · simp only [Function.update_of_ne hi]
    exact (h.walk i).alloc _
  · exact le_of_eq (List.mem_singleton.mp ha).symm
  · rw [hchain]
    rfl

/-- `put` of a key that the chain does not have: `prev` is its last node. -/
private theorem Spells.put_new (h : t.Spells l ht) {key : Int64} (value : Int64) {head : Nat}
    (hhead : t.ht (bucket key) = some head) (hnot : key ∉ (ht.chain (bucket key)).map (·.key))
    (hfind : t.walk key (t.ht (bucket key)) = some (Heap.last none (l (bucket key)), none)) :
    ∃ t' l', t.put key value = some t' ∧ t'.Spells l' (ht.put key value) := by
  have hwalk := h.walk (bucket key)
  obtain ⟨l₁, ⟨a, n⟩, hl⟩ : ∃ l₁ z, l (bucket key) = l₁ ++ [z] := by
    rcases List.eq_nil_or_concat (l (bucket key)) with hnil | ⟨l₁, z, hz⟩
    · rw [hhead, hnil] at hwalk
      exact hwalk.elim
    · exact ⟨l₁, z, by rw [hz, List.concat_eq_append]⟩
  have hlast : Heap.last none (l (bucket key)) = some a := by
    rw [hl, Heap.last, List.foldl_append]
    rfl
  have hput : t.put key value = some { t with
      heap := (t.heap.alloc ⟨key, value⟩).set a fun n => { n with next := some t.heap.fresh } } := by
    rw [hhead] at hfind
    simp only [Chains.put, hhead, hfind, hlast, Option.bind_some]
  rw [hl] at hwalk
  refine ⟨_, _, hput, h.replace (r := l₁ ++ [(a, n), (t.heap.fresh, ⟨key, value⟩)]) ?_
    (fun i hi => ?_) (fun b hb => ?_) ?_⟩
  · refine (hwalk.alloc _).append (t.heap.alloc_cell_self _) fun hmem => ?_
    exact absurd (hwalk.lt hmem) (Nat.lt_irrefl _)
  · refine ((h.walk i).alloc _).congr fun b hb => Heap.set_cell_of_ne _ _ ?_
    rintro rfl
    refine h.apart i (bucket key) hi hb ?_
    rw [hl]
    simp
  · simp only [List.map_append, List.map_cons, List.map_nil, List.mem_append, List.mem_cons,
      List.not_mem_nil, or_false] at hb
    rw [hl]
    rcases hb with hb | rfl | rfl
    · exact Or.inl (by simp only [List.map_append, List.mem_append]; exact Or.inl hb)
    · exact Or.inl (by simp)
    · exact Or.inr (le_refl _)
  · rw [putChain_of_not_mem hnot, ← h.chain, hl]
    simp

/-- `put` of a key that the chain has. -/
private theorem Spells.put_old (h : t.Spells l ht) {key : Int64} (value : Int64) {head a : Nat}
    {n : HashNode} {l₁ l₂ : List (Nat × HashNode)} {prev : Option Nat}
    (hhead : t.ht (bucket key) = some head) (hl : l (bucket key) = l₁ ++ (a, n) :: l₂)
    (hnot : key ∉ (l₁.map Prod.snd).map (·.key)) (hn : key = n.key)
    (hfind : t.walk key (t.ht (bucket key)) = some (prev, some a)) :
    ∃ t' l', t.put key value = some t' ∧ t'.Spells l' (ht.put key value) := by
  have hput : t.put key value = some { t with
      heap := t.heap.set a fun n => { n with val := { n.val with value } } } := by
    rw [hhead] at hfind
    simp only [Chains.put, hhead, hfind, Option.bind_some]
  have hwalk := h.walk (bucket key)
  rw [hl] at hwalk
  obtain ⟨-, next, hcell, -⟩ := Heap.spells_cons.mp hwalk.suffix
  have hset : t.heap.set a (fun n => { n with val := { n.val with value } }) =
      t.heap.set a fun m => { m with val := { n with value } } := by
    simp only [Heap.set, hcell, Option.map_some]
  rw [hset] at hput
  refine ⟨_, _, hput, h.replace (r := l₁ ++ (a, { n with value }) :: l₂) ?_
    (fun i hi => ?_) (fun b hb => Or.inl ?_) ?_⟩
  · exact hwalk.set_val _
  · refine (h.walk i).congr fun b hb => Heap.set_cell_of_ne _ _ ?_
    rintro rfl
    refine h.apart i (bucket key) hi hb ?_
    rw [hl]
    simp
  · rw [hl]
    simpa using hb
  · rw [← h.chain, hl]
    simp only [List.map_append, List.map_cons]
    rw [putChain_append_cons hnot n hn]

/-- `put` follows no null pointer, ends, and does to the lists what it should. -/
theorem Spells.put (h : t.Spells l ht) (key value : Int64) :
    ∃ t' l', t.put key value = some t' ∧ t'.Spells l' (ht.put key value) := by
  cases hhead : t.ht (bucket key) with
  | none => exact h.put_first key value hhead
  | some head =>
      rcases h.find key (bucket key) with
        ⟨hnot, hfind⟩ | ⟨l₁, a, n, l₂, prev, hl, hnot, hn, hfind⟩
      · exact h.put_new value hhead hnot hfind
      · exact h.put_old value hhead hl hnot hn hfind

/-- So does any sequence of calls. -/
theorem Spells.putAll (h : t.Spells l ht) (ns : List HashNode) :
    ∃ t' l', t.putAll ns = some t' ∧ t'.Spells l' (ht.putAll ns) := by
  induction ns generalizing t l ht with
  | nil => exact ⟨t, l, rfl, h⟩
  | cons n ns ih =>
      obtain ⟨u, m, hput, hu⟩ := h.put n.key n.value
      obtain ⟨t', l', hall, ht'⟩ := ih hu
      refine ⟨t', l', ?_, ht'⟩
      unfold Chains.putAll at *
      rw [List.foldlM_cons, hput]
      exact hall

/-- A chain read along its links. -/
theorem Spells.read (h : t.Spells l ht) (i : Fin HTABLESIZE) : t.chain i = some (ht.chain i) := by
  rw [← h.chain]
  exact (h.walk i).read (Nat.lt_succ_of_le (h.walk i).length_le)

/-- `dump` prints what the lists have. -/
theorem Spells.dump (h : t.Spells l ht) : t.dump = some (dumpText ht) := by
  have hchains : ∀ is : List (Fin HTABLESIZE), is.mapM t.chain = some (is.map ht.chain) := by
    intro is
    induction is with
    | nil => rfl
    | cons i is ih =>
        rw [List.mapM_cons, h.read, ih]
        rfl
  simp only [Chains.dump, hchains, Option.map_some, dumpText_eq, HashTable.nodes, List.flatMap]

/-- Reading a text does to the pointers what it does to the lists. -/
theorem Spells.readFromDatabase {ht' : HashTable} (h : t.Spells l ht) (text : Bytes)
    (hr : Afs.readFromDatabase text ht = some ht') :
    ∃ t' l', t.readFromDatabase text = some t' ∧ t'.Spells l' ht' := by
  unfold Chains.readFromDatabase
  unfold Afs.readFromDatabase at hr
  generalize getlines text = lines at hr ⊢
  induction lines generalizing t l ht with
  | nil =>
      obtain rfl := Option.some.inj hr
      exact ⟨t, l, rfl, h⟩
  | cons line lines ih =>
      rw [List.foldlM_cons, readLine_eq] at hr
      obtain ⟨u, hu, hr⟩ := Option.bind_eq_some_iff.mp hr
      obtain ⟨n, hn, rfl⟩ := Option.map_eq_some_iff.mp hu
      obtain ⟨v, m, hput, hv⟩ := h.put n.key n.value
      obtain ⟨t', l', hall, ht'⟩ := ih hv hr
      refine ⟨t', l', ?_, ht'⟩
      rw [List.foldlM_cons, hn, Option.bind_some, hput]
      exact hall

end Chains

/-- The value of the last call of `put` for a key, or `-1`. -/
def lastPut (ns : List HashNode) (key : Int64) : Int64 :=
  ((ns.filter fun n => n.key = key).getLast?.map (·.value)).getD (-1)

theorem HashTable.putAll_append (ht : HashTable) (l : List HashNode) (n : HashNode) :
    ht.putAll (l ++ [n]) = (ht.putAll l).put n.key n.value := by
  simp only [HashTable.putAll, List.foldl_append, List.foldl_cons, List.foldl_nil]

theorem HashTable.Regular.putAll {ht : HashTable} (h : ht.Regular) (ns : List HashNode) :
    (ht.putAll ns).Regular := by
  induction ns using List.reverseRecOn with
  | nil => exact h
  | append_singleton ns n ih =>
      rw [HashTable.putAll_append]
      exact ih.put _ _

/-- A table returns what was put last. -/
theorem HashTable.get_putAll (ns : List HashNode) (filename : Path) :
    (initHt.putAll ns).get filename = lastPut ns (hashKey filename) := by
  induction ns using List.reverseRecOn with
  | nil => rfl
  | append_singleton ns n ih =>
      rw [putAll_append]
      by_cases hk : n.key = hashKey filename
      · rw [hk, get_put_self]
        simp [lastPut, List.filter_append, hk]
      · have hold : ((initHt.putAll ns).put n.key n.value).get filename =
            (initHt.putAll ns).get filename := by
          simp only [HashTable.get, HashTable.put]
          by_cases hb : bucket (hashKey filename) = bucket n.key
          · rw [hb, Function.update_self, getChain_putChain_of_ne (Ne.symm hk)]
          · rw [Function.update_of_ne hb]
        rw [hold, ih]
        simp [lastPut, List.filter_append, hk]

/-- The nodes of a table were put. -/
theorem HashTable.mem_of_mem_putAll {ns : List HashNode} {b : Fin HTABLESIZE} {n : HashNode}
    (h : n ∈ (initHt.putAll ns).chain b) : n ∈ ns := by
  induction ns using List.reverseRecOn with
  | nil => cases h
  | append_singleton ns m ih =>
      rw [putAll_append] at h
      simp only [HashTable.put] at h
      by_cases hb : b = bucket m.key
      · rw [hb, Function.update_self] at h
        rcases mem_putChain h with rfl | hold
        · exact List.mem_append_right ns (List.mem_singleton_self _)
        · exact List.mem_append_left _ (ih (hb ▸ hold))
      · rw [Function.update_of_ne hb] at h
        exact List.mem_append_left _ (ih h)

/-- The keys of a chain are those that were put and belong there. -/
theorem HashTable.mem_keys_putAll (ns : List HashNode) (i : Fin HTABLESIZE) (key : Int64) :
    key ∈ ((initHt.putAll ns).chain i).map (·.key) ↔ i = bucket key ∧ key ∈ ns.map (·.key) := by
  induction ns using List.reverseRecOn with
  | nil => exact iff_of_false List.not_mem_nil fun h => List.not_mem_nil h.2
  | append_singleton ns n ih =>
      rw [putAll_append, List.map_append, List.mem_append, List.map_singleton, List.mem_singleton]
      simp only [HashTable.put]
      by_cases hi : i = bucket n.key
      · rw [hi, Function.update_self, map_key_putChain]
        rw [hi] at ih
        split
        · next hold =>
          rw [ih]
          constructor
          · exact fun h => ⟨h.1, Or.inl h.2⟩
          · rintro ⟨hb, h | rfl⟩
            · exact ⟨hb, h⟩
            · exact ih.mp hold
        · rw [List.mem_append, List.mem_singleton, ih]
          constructor
          · rintro (h | rfl)
            · exact ⟨h.1, Or.inl h.2⟩
            · exact ⟨rfl, Or.inr rfl⟩
          · rintro ⟨hb, h | rfl⟩
            · exact Or.inl ⟨hb, h⟩
            · exact Or.inr rfl
      · rw [Function.update_of_ne hi, ih]
        constructor
        · exact fun h => ⟨h.1, Or.inl h.2⟩
        · rintro ⟨hb, h | rfl⟩
          · exact ⟨hb, h⟩
          · exact absurd hb hi

namespace Chains

/-- The nodes of every chain with their addresses, after the given calls of `put`. -/
structure MapOf (ns : List HashNode) (t : Chains) (l : Fin HTABLESIZE → List (Nat × HashNode)) :
    Prop where
  /-- The links from the array lead through these nodes to a null pointer. -/
  walk : ∀ i, t.heap.Spells (t.ht i) (l i)
  /-- No chain comes back to a node. -/
  acyclic : ∀ i, ((l i).map Prod.fst).Nodup
  /-- No two chains share a node. -/
  apart : ∀ i j, i ≠ j → List.Disjoint ((l i).map Prod.fst) ((l j).map Prod.fst)
  /-- A node is in the chain with the number of its key, and its key was put. -/
  placed : ∀ i, ∀ z ∈ l i, i.val = (hashtableindex z.2.key.toInt32.toUInt32).toNat ∧
    z.2.key ∈ ns.map (·.key)
  /-- A key that was put is in one node. -/
  once : ∀ key ∈ ns.map (·.key), ∃! z : Fin HTABLESIZE × Nat,
    ∃ n, (z.2, n) ∈ l z.1 ∧ n.key = key

theorem Spells.mapOf {t : Chains} {l : Fin HTABLESIZE → List (Nat × HashNode)} {ns : List HashNode}
    (h : t.Spells l (Afs.initHt.putAll ns)) : MapOf ns t l := by
  have hkeys : ∀ i key, (∃ z ∈ l i, z.2.key = key) ↔ i = bucket key ∧ key ∈ ns.map (·.key) := by
    intro i key
    rw [← HashTable.mem_keys_putAll, ← h.chain, List.map_map, List.mem_map]
    rfl
  refine ⟨h.walk, fun i => (h.walk i).nodup, h.apart, fun i z hz => ?_, fun key hkey => ?_⟩
  · obtain ⟨hi, hmem⟩ := (hkeys i z.2.key).mp ⟨z, hz, rfl⟩
    exact ⟨by rw [hi]; rfl, hmem⟩
  · obtain ⟨⟨a, n⟩, hz, hn⟩ := (hkeys (bucket key) key).mpr ⟨rfl, hkey⟩
    refine ⟨(bucket key, a), ⟨n, hz, hn⟩, ?_⟩
    rintro ⟨j, b⟩ ⟨m, hm, hkm⟩
    obtain ⟨rfl, -⟩ := (hkeys j key).mp ⟨(b, m), hm, hkm⟩
    have hnodup := (regular_initHt.putAll ns).nodup (bucket key)
    rw [← h.chain, List.map_map] at hnodup
    have hsame := List.inj_on_of_nodup_map hnodup hm hz (hkm.trans hn.symm)
    exact congrArg (Prod.mk (bucket key)) (Prod.mk.inj hsame).1

/-- After any calls of `put` the pointers hold the map from keys to the values put last, with every key
in one node of the chain that its number belongs to, and no call follows a null pointer. -/
theorem table_is_a_map (t₀ : Chains) (ns : List HashNode) :
    (∀ key : Int64, (hashtableindex key.toInt32.toUInt32).toNat < 100) ∧
    ∃ t l, t₀.initHt.putAll ns = some t ∧ MapOf ns t l ∧
      ∀ filename, t.get filename = some (lastPut ns (hashKey filename)) := by
  refine ⟨fun key => hashtableindex_lt _, ?_⟩
  obtain ⟨t, l, hput, h⟩ := (Spells.initHt t₀).putAll ns
  refine ⟨t, l, hput, h.mapOf, fun filename => ?_⟩
  rw [h.get, HashTable.get_putAll]

/-- What `dump` prints of a table made by calls of `put` is read back as the same chains, which print
the same. -/
theorem dump_reloads (t₀ t₁ : Chains) (ns : List HashNode) :
    ∃ t text t', t₀.initHt.putAll ns = some t ∧ t.dump = some text ∧
      t₁.initHt.readFromDatabase text = some t' ∧ t'.dump = some text ∧
      ∀ i, ∃ nodes, t.chain i = some nodes ∧ t'.chain i = some nodes := by
  obtain ⟨t, l, hput, h⟩ := (Spells.initHt t₀).putAll ns
  have hread := readFromDatabase_dumpText (regular_initHt.putAll ns)
  obtain ⟨t', l', hload, h'⟩ := (Spells.initHt t₁).readFromDatabase _ hread
  exact ⟨t, _, t', hput, h.dump, hload, h'.dump, fun i => ⟨_, h.read i, h'.read i⟩⟩

end Chains

end Afs
