import Afs.Model.Chains
import Afs.Table.Lookup
import Mathlib.Data.List.TakeWhile
import Mathlib.Data.Nat.Digits.Lemmas

/-!
# The table written out and read back

A table built by insertions keeps every key once, in the chain of its bucket. The text that such a
table prints is taken apart line by line into the same nodes in the same order, every 64-bit key and
value included, and inserting these into the empty table builds the same chains again.
-/

namespace Afs

open Posix

/-- The byte of a decimal digit. -/
private theorem toNat_digit {d : Nat} (h : d < 10) : (48 + d.toUInt8 : UInt8).toNat = 48 + d := by
  simp only [UInt8.toNat_add, UInt8.toNat_ofNat, Nat.toUInt8, UInt8.toNat_ofNat']
  omega

private theorem isdigit_iff {c : UInt8} : isdigit c = true ↔ 48 ≤ c.toNat ∧ c.toNat ≤ 57 := by
  simp only [isdigit, Bool.and_eq_true, decide_eq_true_eq, UInt8.le_iff_toNat_le]
  exact Iff.rfl

/-- Every byte that a number prints is a digit. -/
theorem isdigit_of_mem_decimal {n : Nat} {c : UInt8} (h : c ∈ decimal n) : isdigit c = true := by
  unfold decimal at h
  split at h
  · obtain rfl := List.mem_singleton.mp h
    rfl
  · obtain ⟨d, hd, rfl⟩ := List.mem_map.mp (List.mem_reverse.mp h)
    have hlt := Nat.digits_lt_base (by omega : 1 < 10) hd
    rw [isdigit_iff, toNat_digit hlt]
    omega

theorem decimal_ne_nil (n : Nat) : decimal n ≠ [] := by
  unfold decimal
  split
  · exact List.cons_ne_nil _ _
  · simpa only [ne_eq, List.reverse_eq_nil_iff, List.map_eq_nil_iff, Nat.digits_eq_nil_iff_eq_zero]

/-- Digits from the least significant one, folded from the other end. -/
private theorem foldr_digits (l : List Nat) (h : ∀ d ∈ l, d < 10) :
    (l.map fun d => (48 + d.toUInt8 : UInt8)).foldr (fun c acc => 10 * acc + (c.toNat - 48)) 0 =
      Nat.ofDigits 10 l := by
  induction l with
  | nil => rfl
  | cons d l ih =>
      have hd := toNat_digit (h d List.mem_cons_self)
      rw [List.map_cons, List.foldr_cons, ih fun e he => h e (List.mem_cons_of_mem _ he), hd,
        Nat.ofDigits_cons]
      omega

/-- The digits of a number have its value, whatever comes after them. -/
theorem digitsValue_decimal (n : Nat) {rest : Bytes} (h : ∀ c ∈ rest.head?, isdigit c = false) :
    digitsValue (decimal n ++ rest) = n := by
  have htake : (decimal n ++ rest).takeWhile isdigit = decimal n := by
    rw [List.takeWhile_append_of_pos fun c hc => isdigit_of_mem_decimal hc]
    cases rest with
    | nil => rw [List.takeWhile_nil, List.append_nil]
    | cons c cs =>
        rw [List.takeWhile_cons, h c rfl, if_neg Bool.false_ne_true, List.append_nil]
  unfold digitsValue
  rw [htake]
  unfold decimal
  split
  · next hn => rw [hn]; rfl
  · rw [List.foldl_reverse, foldr_digits _ fun d hd => Nat.digits_lt_base (by omega) hd,
      Nat.ofDigits_digits]

theorem clampLong_toInt (x : Int64) : clampLong x.toInt = x := by
  have hlt := x.toInt_lt
  have hle := x.le_toInt
  have hmin : min (2 ^ 63 - 1) x.toInt = x.toInt := by omega
  have hmax : max (-2 ^ 63) x.toInt = x.toInt := by omega
  rw [clampLong, hmin, hmax, Int64.ofInt_toInt]

/-- A number is not taken for a blank, a sign or a separator. -/
theorem not_special {c : UInt8} (h : isdigit c = true) :
    isspace c = false ∧ c ≠ 45 ∧ c ≠ 43 ∧ c ≠ 44 ∧ c ≠ 10 ∧ c ≠ 0 := by
  rw [isdigit_iff] at h
  have hne : ∀ k : UInt8, (k.toNat < 48 ∨ 57 < k.toNat) → c ≠ k := by
    rintro k hk rfl
    omega
  refine ⟨?_, hne 45 (by decide), hne 43 (by decide), hne 44 (by decide), hne 10 (by decide),
    hne 0 (by decide)⟩
  have h32 := hne 32 (by decide)
  simp only [isspace, Bool.or_eq_false_iff, beq_eq_false_iff_ne, ne_eq, h32, not_false_eq_true,
    Bool.and_eq_false_iff, decide_eq_false_iff_not, UInt8.le_iff_toNat_le, true_and]
  right
  change ¬ c.toNat ≤ 13
  omega

/-- Reading a printed number gives it back, up to the first byte after it that is no digit. -/
theorem atol_printLong (x : Int64) {rest : Bytes} (h : ∀ c ∈ rest.head?, isdigit c = false) :
    atol (printLong x ++ rest) = x := by
  by_cases hneg : x.toInt < 0
  · have hminus : (printLong x ++ rest).dropWhile isspace =
        45 :: (decimal x.toInt.natAbs ++ rest) := by
      rw [printLong, if_pos hneg]
      rfl
    have habs : (-(x.toInt.natAbs : Int)) = x.toInt := by omega
    rw [atol, hminus]
    simp only [digitsValue_decimal _ h, habs, clampLong_toInt]
  · obtain ⟨c, cs, hc⟩ := List.exists_cons_of_ne_nil (decimal_ne_nil x.toInt.natAbs)
    obtain ⟨hspace, hminus, hplus, -⟩ :=
      not_special (isdigit_of_mem_decimal (hc ▸ List.mem_cons_self))
    have hdrop : (printLong x ++ rest).dropWhile isspace = c :: (cs ++ rest) := by
      rw [printLong, if_neg hneg, hc, List.cons_append, List.dropWhile_cons, hspace,
        if_neg Bool.false_ne_true]
    have habs : ((x.toInt.natAbs : Nat) : Int) = x.toInt := by omega
    have hvalue := digitsValue_decimal x.toInt.natAbs h
    rw [hc, List.cons_append] at hvalue
    rw [atol, hdrop]
    split
    · next ds hds => exact absurd (List.cons.inj hds).1 hminus
    · next ds hds => exact absurd (List.cons.inj hds).1 hplus
    · rw [hvalue, habs, clampLong_toInt]

/-- A printed number has no comma, no newline and no terminator in it. -/
theorem mem_printLong {x : Int64} {c : UInt8} (h : c ∈ printLong x) :
    c ≠ 44 ∧ c ≠ 10 ∧ c ≠ 0 := by
  have hdigit : ∀ c ∈ decimal x.toInt.natAbs, c ≠ 44 ∧ c ≠ 10 ∧ c ≠ 0 := fun c hc =>
    (not_special (isdigit_of_mem_decimal hc)).2.2.2
  unfold printLong at h
  split at h
  · rcases List.mem_cons.mp h with rfl | h
    · decide
    · exact hdigit c h
  · exact hdigit c h

/-- A line is inserted with the fields that it has. -/
theorem readLine_eq (ht : HashTable) (line : Bytes) :
    readLine ht line = (parseLine line).map fun n => ht.put n.key n.value := by
  unfold readLine parseLine
  rcases strsep (line.takeWhile (· != 0)) with ⟨k, _ | rest⟩
  · rfl
  · simp only
    rcases strsep rest with ⟨v, _ | rest⟩ <;> rfl

/-- The fields of a line that begins with a printed key and a comma. -/
theorem parseLine_key (x : Int64) {v : Bytes} (hv : ∀ c ∈ v, c ≠ 44 ∧ c ≠ 0) :
    parseLine (printLong x ++ 44 :: v) = some ⟨x, atol v⟩ := by
  have hline : (printLong x ++ 44 :: v).takeWhile (· != 0) = printLong x ++ 44 :: v := by
    rw [List.takeWhile_eq_self_iff]
    intro c hc
    rw [bne_iff_ne]
    rcases List.mem_append.mp hc with hc | hc
    · exact (mem_printLong hc).2.2
    · rcases List.mem_cons.mp hc with rfl | hc
      · decide
      · exact (hv c hc).2
  have hkey : ∀ c ∈ printLong x, (c != 44) = true := fun c hc => bne_iff_ne.mpr (mem_printLong hc).1
  have hvalue : ∀ c ∈ v, (c != 44) = true := fun c hc => bne_iff_ne.mpr (hv c hc).1
  have hfirst : strsep (printLong x ++ 44 :: v) = (printLong x, some v) := by
    unfold strsep
    rw [List.dropWhile_append_of_pos hkey, List.takeWhile_append_of_pos hkey]
    simp
  have hsecond : strsep v = (v, none) := by
    unfold strsep
    rw [List.dropWhile_eq_nil_iff.mpr hvalue]
  have hatol : atol (printLong x) = x := by
    rw [← List.append_nil (printLong x)]
    exact atol_printLong x fun c hc => by cases hc
  unfold parseLine
  simp only [hline, hfirst, hsecond, hatol]

/-- The fields of a printed line. -/
theorem parseLine_printNode (n : HashNode) : parseLine (printNode n) = some n := by
  have hsplit : printNode n = printLong n.key ++ 44 :: (printLong n.value ++ [10]) := by
    simp only [printNode, List.append_assoc, List.cons_append, List.nil_append]
  have hatol : atol (printLong n.value ++ [10]) = n.value :=
    atol_printLong n.value fun c hc => by
      obtain rfl := Option.some.inj hc
      rfl
  rw [hsplit, parseLine_key, hatol]
  intro c hc
  rcases List.mem_append.mp hc with hc | hc
  · exact ⟨(mem_printLong hc).1, (mem_printLong hc).2.2⟩
  · obtain rfl := List.mem_singleton.mp hc
    decide

/-- One printed line, inserted. -/
theorem readLine_printNode (ht : HashTable) (n : HashNode) :
    readLine ht (printNode n) = some (ht.put n.key n.value) := by
  rw [readLine_eq, parseLine_printNode, Option.map_some]

/-- The first line of a text that begins with a complete one. -/
theorem getlines_append {l : Bytes} (h : 10 ∉ l) (rest : Bytes) :
    getlines (l ++ 10 :: rest) = (l ++ [10]) :: getlines rest := by
  induction l with
  | nil => simp only [List.nil_append, getlines, if_true]
  | cons c l ih =>
      rw [List.mem_cons, not_or] at h
      have hc : c ≠ 10 := fun he => h.1 he.symm
      simp only [List.cons_append, getlines, hc, if_false, ih h.2]

/-- The lines of a text that begins with printed nodes. -/
theorem getlines_printNodes_append (l : List HashNode) (rest : Bytes) :
    getlines (l.flatMap printNode ++ rest) = l.map printNode ++ getlines rest := by
  induction l with
  | nil => rfl
  | cons n l ih =>
      have hmem : (10 : UInt8) ∉ printLong n.key ++ [44] ++ printLong n.value := by
        intro h
        simp only [List.mem_append, List.mem_singleton] at h
        rcases h with (h | h) | h
        · exact (mem_printLong h).2.1 rfl
        · exact absurd h (by decide)
        · exact (mem_printLong h).2.1 rfl
      have hnode : printNode n ++ l.flatMap printNode ++ rest =
          (printLong n.key ++ [44] ++ printLong n.value) ++ 10 :: (l.flatMap printNode ++ rest) := by
        simp only [printNode, List.append_assoc, List.cons_append, List.nil_append]
      rw [List.flatMap_cons, hnode, getlines_append hmem, ih, List.map_cons]
      rfl

/-- The lines of printed nodes. -/
theorem getlines_printNodes (l : List HashNode) :
    getlines (l.flatMap printNode) = l.map printNode := by
  have hlines := getlines_printNodes_append l []
  rwa [List.append_nil, getlines, List.append_nil] at hlines

/-- Nodes inserted in order. -/
def HashTable.putAll (ht : HashTable) (l : List HashNode) : HashTable :=
  l.foldl (fun ht n => ht.put n.key n.value) ht

/-- Reading printed nodes inserts them in order. -/
theorem readFromDatabase_printNodes (l : List HashNode) (ht : HashTable) :
    readFromDatabase (l.flatMap printNode) ht = some (ht.putAll l) := by
  unfold readFromDatabase
  rw [getlines_printNodes]
  induction l generalizing ht with
  | nil => rfl
  | cons n l ih =>
      rw [List.map_cons, List.foldlM_cons, readLine_printNode]
      exact ih _

/-- The nodes of a table in the order of the text. -/
def HashTable.nodes (ht : HashTable) : List HashNode := (List.finRange HTABLESIZE).flatMap ht.chain

theorem dumpText_eq (ht : HashTable) : dumpText ht = ht.nodes.flatMap printNode := by
  simp only [dumpText, HashTable.nodes, List.flatMap_assoc]

/-- Every key is kept once, in the chain of its bucket. -/
structure HashTable.Regular (ht : HashTable) : Prop where
  /-- A node is in the chain of its key. -/
  bucket : ∀ i, ∀ n ∈ ht.chain i, bucket n.key = i
  /-- No chain has a key twice. -/
  nodup : ∀ i, ((ht.chain i).map (·.key)).Nodup

theorem regular_initHt : initHt.Regular :=
  ⟨fun _ _ h => absurd h List.not_mem_nil, fun _ => List.nodup_nil⟩

/-- An insertion keeps the keys of a chain, or adds the new one at its end. -/
theorem map_key_putChain (key value : Int64) (l : List HashNode) :
    (putChain key value l).map (·.key) =
      if key ∈ l.map (·.key) then l.map (·.key) else l.map (·.key) ++ [key] := by
  induction l with
  | nil => rfl
  | cons n l ih =>
      by_cases h : key = n.key
      · simp only [putChain, h, if_true, List.map_cons, List.mem_cons, true_or]
      · simp only [putChain, h, if_false, List.map_cons, ih, List.mem_cons, false_or]
        split <;> rfl

/-- A new key goes to the end. -/
theorem putChain_of_not_mem {key : Int64} {l : List HashNode}
    (h : key ∉ l.map (·.key)) (value : Int64) : putChain key value l = l ++ [⟨key, value⟩] := by
  induction l with
  | nil => rfl
  | cons n l ih =>
      rw [List.map_cons, List.mem_cons, not_or] at h
      simp only [putChain, h.1, if_false, ih h.2, List.cons_append]

/-- Insertions keep a table regular. -/
theorem HashTable.Regular.put {ht : HashTable} (h : ht.Regular) (key value : Int64) :
    (ht.put key value).Regular := by
  have hkeys := map_key_putChain key value (ht.chain (Afs.bucket key))
  constructor
  · intro i n hn
    simp only [HashTable.put] at hn
    by_cases hi : i = Afs.bucket key
    · subst hi
      rw [Function.update_self] at hn
      have hmem : n.key ∈ (putChain key value (ht.chain (Afs.bucket key))).map (·.key) :=
        List.mem_map_of_mem hn
      rw [hkeys] at hmem
      have hold : ∀ k ∈ (ht.chain (Afs.bucket key)).map (·.key), Afs.bucket k = Afs.bucket key := by
        intro k hk
        obtain ⟨m, hm, rfl⟩ := List.mem_map.mp hk
        exact h.bucket _ m hm
      split at hmem
      · exact hold _ hmem
      · rcases List.mem_append.mp hmem with hmem | hmem
        · exact hold _ hmem
        · rw [List.mem_singleton.mp hmem]
    · rw [Function.update_of_ne hi] at hn
      exact h.bucket i n hn
  · intro i
    simp only [HashTable.put]
    by_cases hi : i = Afs.bucket key
    · subst hi
      rw [Function.update_self, hkeys]
      split
      · exact h.nodup _
      · next hnew => exact List.concat_eq_append ▸ (h.nodup _).concat hnew
    · rw [Function.update_of_ne hi]
      exact h.nodup i

/-- Different keys inserted into the empty table line up in their chains. -/
private theorem chain_putAll_initHt {l : List HashNode} (h : (l.map (·.key)).Nodup)
    (i : Fin HTABLESIZE) : (initHt.putAll l).chain i = l.filter fun n => bucket n.key = i := by
  induction l using List.reverseRecOn with
  | nil => rfl
  | append_singleton l n ih =>
      rw [List.map_append, List.map_singleton] at h
      have hl : (l.map (·.key)).Nodup := h.of_append_left
      have hnew : n.key ∉ l.map (·.key) := fun hm =>
        (List.disjoint_of_nodup_append h) hm List.mem_cons_self
      have hput : initHt.putAll (l ++ [n]) = (initHt.putAll l).put n.key n.value := by
        simp only [HashTable.putAll, List.foldl_append, List.foldl_cons, List.foldl_nil]
      rw [hput]
      simp only [HashTable.put, List.filter_append]
      by_cases hi : bucket n.key = i
      · subst hi
        have hchain : n.key ∉ ((initHt.putAll l).chain (bucket n.key)).map (·.key) := by
          rw [ih hl]
          intro hm
          obtain ⟨m, hm, hk⟩ := List.mem_map.mp hm
          exact hnew (hk ▸ List.mem_map_of_mem (List.mem_of_mem_filter hm))
        rw [Function.update_self, putChain_of_not_mem hchain, ih hl]
        simp
      · have hempty : [n].filter (fun n => bucket n.key = i) = [] := by
          simp only [List.filter_cons, hi, decide_false, Bool.false_eq_true, if_false,
            List.filter_nil]
        rw [Function.update_of_ne (Ne.symm hi), ih hl, hempty, List.append_nil]

/-- No two nodes of a regular table have the same key. -/
theorem HashTable.Regular.nodup_nodes {ht : HashTable} (h : ht.Regular) :
    (ht.nodes.map (·.key)).Nodup := by
  rw [HashTable.nodes, List.map_flatMap, List.nodup_flatMap]
  refine ⟨fun i _ => h.nodup i, (List.nodup_finRange _).imp fun {i j} hij => ?_⟩
  intro k hi hj
  obtain ⟨m, hm, rfl⟩ := List.mem_map.mp hi
  obtain ⟨m', hm', hk⟩ := List.mem_map.mp hj
  apply hij
  rw [← h.bucket i m hm, ← h.bucket j m' hm', hk]

/-- The nodes of one bucket. -/
private theorem HashTable.Regular.filter_nodes {ht : HashTable} (h : ht.Regular)
    (i : Fin HTABLESIZE) : (ht.nodes.filter fun n => Afs.bucket n.key = i) = ht.chain i := by
  have hchain : ∀ j, (ht.chain j).filter (fun n => Afs.bucket n.key = i) =
      if j = i then ht.chain i else [] := by
    intro j
    split
    · next hj =>
      subst hj
      exact List.filter_eq_self.mpr fun n hn => decide_eq_true (h.bucket j n hn)
    · next hj =>
      exact List.filter_eq_nil_iff.mpr fun n hn => by simp [h.bucket j n hn, hj]
  have hone : ∀ l : List (Fin HTABLESIZE), l.Nodup →
      (l.flatMap fun j => if j = i then ht.chain i else []) =
        if i ∈ l then ht.chain i else [] := by
    intro l hl
    induction l with
    | nil => rfl
    | cons j l ih =>
        obtain ⟨hj, hl⟩ := List.nodup_cons.mp hl
        rw [List.flatMap_cons, ih hl]
        by_cases hji : j = i
        · subst hji
          simp [hj]
        · simp [hji, Ne.symm hji]
  rw [HashTable.nodes, List.filter_flatMap]
  simp only [hchain, hone _ (List.nodup_finRange _), List.mem_finRange, if_true]

/-- What a regular table prints is read back as the same table. -/
theorem readFromDatabase_dumpText {ht : HashTable} (h : ht.Regular) :
    readFromDatabase (dumpText ht) initHt = some ht := by
  rw [dumpText_eq, readFromDatabase_printNodes]
  refine congrArg some ?_
  have hchain : (initHt.putAll ht.nodes).chain = ht.chain := by
    funext i
    rw [chain_putAll_initHt h.nodup_nodes, h.filter_nodes]
  cases hx : initHt.putAll ht.nodes
  rw [hx] at hchain
  simp only at hchain
  rw [hchain]

private theorem putChain_ne_nil (key value : Int64) (l : List HashNode) : putChain key value l ≠ [] := by
  cases l with
  | nil => exact List.cons_ne_nil _ _
  | cons n l =>
      unfold putChain
      split <;> exact List.cons_ne_nil _ _

/-- The text of a table with an entry is not empty. -/
theorem dumpText_put_ne (ht : HashTable) (key value : Int64) : dumpText (ht.put key value) ≠ [] := by
  obtain ⟨n, hn⟩ := List.exists_mem_of_ne_nil _ (putChain_ne_nil key value (ht.chain (bucket key)))
  have hnode : n ∈ (ht.put key value).chain (bucket key) := by
    simp only [HashTable.put, Function.update_self]
    exact hn
  intro he
  simp only [dumpText, List.flatMap_eq_nil_iff] at he
  have hline := he (bucket key) (List.mem_finRange _) n hnode
  exact absurd hline (by simp [printNode])

/-- A new value for a key of the chain keeps its length. -/
private theorem length_putChain {key : Int64} {l : List HashNode} (h : getChain key l ≠ -1)
    (value : Int64) : (putChain key value l).length = l.length := by
  induction l with
  | nil => exact absurd rfl h
  | cons n rest ih =>
      by_cases hk : key = n.key
      · simp only [putChain, hk, if_true, List.length_cons]
      · simp only [getChain, hk, if_false] at h
        simp only [putChain, hk, if_false, List.length_cons, ih h]

private theorem HashTable.length_nodes_put {ht : HashTable} {p : Path} (h : ht.get p ≠ -1)
    (value : Int64) : (ht.put (hashKey p) value).nodes.length = ht.nodes.length := by
  simp only [nodes, List.length_flatMap]
  apply congrArg List.sum
  apply List.map_congr_left
  intro i _
  by_cases hi : i = Afs.bucket (hashKey p)
  · subst hi
    simp only [put, Function.update_self]
    exact length_putChain h value
  · simp only [put, Function.update_of_ne hi]

/-- A text has one newline for each node. -/
private theorem count_dumpText (ht : HashTable) : (dumpText ht).count 10 = ht.nodes.length := by
  have hlong : ∀ x, (printLong x).count 10 = 0 := fun x =>
    List.count_eq_zero.mpr fun h => (mem_printLong h).2.1 rfl
  have hnode : ∀ n, (printNode n).count 10 = 1 := by
    intro n
    simp [printNode, hlong]
  rw [dumpText_eq, List.count_flatMap]
  simp [Function.comp_def, hnode]

/-- What follows the last newline of a text is empty. -/
private theorem drop_dumpText {ht : HashTable} {k : Nat} (h : (10 : UInt8) ∉ (dumpText ht).drop k) :
    (dumpText ht).drop k = [] := by
  rw [dumpText_eq] at *
  cases hl : ht.nodes using List.reverseRecOn with
  | nil => exact List.drop_nil
  | append_singleton l n =>
      have hlast : (l ++ [n]).flatMap printNode =
          (l.flatMap printNode ++ (printLong n.key ++ [44] ++ printLong n.value)) ++ [10] := by
        simp [printNode]
      rw [hl, hlast] at h
      rw [hlast]
      generalize l.flatMap printNode ++ (printLong n.key ++ [44] ++ printLong n.value) = front at h
      by_cases hk : k ≤ front.length
      · rw [List.drop_append_of_le_length hk] at h
        exact absurd (List.mem_append_right _ (List.mem_singleton_self 10)) h
      · apply List.drop_eq_nil_of_le
        rw [List.length_append, List.length_singleton]
        omega

/-- The text with another value for an entry is never a first part of the old text with zeros
behind it. -/
theorem dumpText_put_ne_cut {ht : HashTable} (h : ht.Regular) {p : Path} {value : Int64}
    (hold : ht.get p ≠ -1) (hne : ht.get p ≠ value) (k m : Nat) :
    dumpText (ht.put (hashKey p) value) ≠ (dumpText ht).take k ++ List.replicate m 0 := by
  intro he
  have hcount := congrArg (List.count 10) he
  have hzeros : (List.replicate m (0 : UInt8)).count 10 = 0 := by
    rw [List.count_replicate]
    rfl
  have hsplit := congrArg (List.count 10) (List.take_append_drop k (dumpText ht))
  rw [List.count_append, count_dumpText] at hsplit
  rw [List.count_append, hzeros, count_dumpText, HashTable.length_nodes_put hold] at hcount
  have hdrop : (dumpText ht).drop k = [] :=
    drop_dumpText (List.count_eq_zero.mp (by omega))
  have htake : (dumpText ht).take k = dumpText ht := by
    have happ := List.take_append_drop k (dumpText ht)
    rwa [hdrop, List.append_nil] at happ
  have hm : m = 0 := by
    by_contra hm
    have hmem : (0 : UInt8) ∈ dumpText (ht.put (hashKey p) value) := by
      rw [he]
      exact List.mem_append_right _ (List.mem_replicate.mpr ⟨hm, rfl⟩)
    rw [dumpText_eq, List.mem_flatMap] at hmem
    obtain ⟨n, -, hn⟩ := hmem
    simp only [printNode, List.mem_append, List.mem_singleton] at hn
    rcases hn with ((hn | hn) | hn) | hn
    · exact (mem_printLong hn).2.2 rfl
    · exact absurd hn (by decide)
    · exact (mem_printLong hn).2.2 rfl
    · exact absurd hn (by decide)
  rw [htake, hm, List.replicate_zero, List.append_nil] at he
  have hread := readFromDatabase_dumpText (h.put (hashKey p) value)
  rw [he, readFromDatabase_dumpText h] at hread
  have hget := congrArg (fun x => HashTable.get x p) (Option.some.inj hread)
  simp only [HashTable.get_put_self] at hget
  exact hne hget

end Afs
