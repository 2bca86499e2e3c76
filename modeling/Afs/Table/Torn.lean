import Afs.Table.Chains

/-!
# A text that is cut off

A process that ends while it writes the table out leaves a first part of the text. All lines but the
last one are whole then, and reading goes by what is left of the last one: without its comma it ends the
process, and with a part of its value it gives another value, unless the value is zero.
-/

namespace Afs

open Posix

/-- A first part of joined pieces: all of some of them, and a part of the next one. -/
private theorem take_flatMap_cases {α β : Type} (f : α → List β) (l : List α) (k : Nat) :
    l.flatMap f <+: (l.flatMap f).take k ∨ ∃ front x rest j, l = front ++ x :: rest ∧
      j < (f x).length ∧ k = (front.flatMap f).length + j ∧
        (l.flatMap f).take k = front.flatMap f ++ (f x).take j := by
  induction l generalizing k with
  | nil => exact Or.inl List.nil_prefix
  | cons x l ih =>
      by_cases hk : k < (f x).length
      · refine Or.inr ⟨[], x, l, k, rfl, hk, ?_, ?_⟩
        · simp
        · rw [List.flatMap_cons, List.take_append_of_le_length (Nat.le_of_lt hk)]
          rfl
      · obtain ⟨m, rfl⟩ := Nat.exists_eq_add_of_le (Nat.le_of_not_lt hk)
        rw [List.flatMap_cons, List.take_length_add_append]
        rcases ih m with hall | ⟨front, y, rest, j, rfl, hj, rfl, htake⟩
        · exact Or.inl ((List.prefix_append_right_inj _).mpr hall)
        · refine Or.inr ⟨x :: front, y, rest, j, rfl, hj, ?_, ?_⟩
          · rw [List.flatMap_cons, List.length_append, Nat.add_assoc]
          · rw [htake, List.flatMap_cons, List.append_assoc]

/-- Digits behind a number make it at least ten times as large. -/
private theorem digitsValue_append {l r : Bytes} (hl : ∀ c ∈ l, isdigit c = true)
    (hr : ∀ c ∈ r, isdigit c = true) (hne : r ≠ []) :
    10 * digitsValue l ≤ digitsValue (l ++ r) := by
  have htake : ∀ s : Bytes, (∀ c ∈ s, isdigit c = true) → s.takeWhile isdigit = s := fun s hs =>
    List.takeWhile_eq_self_iff.mpr hs
  have hgrow : ∀ (s : Bytes) (acc : Nat),
      acc ≤ s.foldl (fun acc c => 10 * acc + (c.toNat - 48)) acc := by
    intro s
    induction s with
    | nil => exact fun acc => Nat.le_refl acc
    | cons c s ih =>
        intro acc
        have hrest := ih (10 * acc + (c.toNat - 48))
        rw [List.foldl_cons]
        omega
  unfold digitsValue
  rw [htake l hl, htake (l ++ r) fun c hc => (List.mem_append.mp hc).elim (hl c) (hr c),
    List.foldl_append]
  obtain ⟨c, r, rfl⟩ := List.exists_cons_of_ne_nil hne
  have hrest := hgrow r (10 * l.foldl (fun acc c => 10 * acc + (c.toNat - 48)) 0 + (c.toNat - 48))
  rw [List.foldl_cons]
  omega

/-- The first digits of a number are at most a tenth of it. -/
private theorem digitsValue_take_decimal {n j : Nat} (hj : j < (decimal n).length) :
    10 * digitsValue ((decimal n).take j) ≤ n := by
  have hdigit : ∀ c ∈ decimal n, isdigit c = true := fun c hc => isdigit_of_mem_decimal hc
  have hrest : (decimal n).drop j ≠ [] := by
    intro hnil
    have hlen := congrArg List.length hnil
    rw [List.length_drop, List.length_nil] at hlen
    omega
  have hle := digitsValue_append (l := (decimal n).take j)
    (fun c hc => hdigit c (List.mem_of_mem_take hc)) (fun c hc => hdigit c (List.mem_of_mem_drop hc)) hrest
  have hwhole : digitsValue (decimal n ++ []) = n := digitsValue_decimal n fun c hc => by cases hc
  rw [List.append_nil] at hwhole
  rwa [List.take_append_drop, hwhole] at hle

/-- Digits are read as the number that they are. -/
private theorem atol_digits {l : Bytes} (hl : ∀ c ∈ l, isdigit c = true) :
    atol l = clampLong (digitsValue l) := by
  cases l with
  | nil => rfl
  | cons c cs =>
      obtain ⟨hspace, hminus, hplus, -⟩ := not_special (hl c List.mem_cons_self)
      have hdrop : (c :: cs).dropWhile isspace = c :: cs := by
        rw [List.dropWhile_cons, hspace, if_neg Bool.false_ne_true]
      unfold atol
      rw [hdrop]
      split
      · next ds hds => exact absurd (List.cons.inj hds).1 hminus
      · next ds hds => exact absurd (List.cons.inj hds).1 hplus
      · rfl

private theorem toInt_clampLong {x : Int} (hle : -2 ^ 63 ≤ x) (hlt : x < 2 ^ 63) :
    (clampLong x).toInt = x := by
  have hmin : min (2 ^ 63 - 1) x = x := by omega
  have hmax : max (-2 ^ 63) x = x := by omega
  rw [clampLong, hmin, hmax, Int64.toInt_ofInt_of_le hle (by omega)]

/-- A part of a printed number is read as another number, unless it is nothing of a zero. -/
theorem atol_take_printLong {x : Int64} {j : Nat} (hj : j < (printLong x).length) :
    atol ((printLong x).take j) = x ↔ x = 0 := by
  have hlt := x.toInt_lt
  have hle := x.le_toInt
  constructor
  · intro h
    have hint := congrArg Int64.toInt h
    by_cases hneg : x.toInt < 0
    · exfalso
      rw [printLong, if_pos hneg] at hint hj
      cases j with
      | zero =>
          have hzero : (atol (List.take 0 (45 :: decimal x.toInt.natAbs))).toInt = 0 := rfl
          omega
      | succ j =>
          have hsmall := digitsValue_take_decimal (Nat.lt_of_succ_lt_succ hj)
          have hatol : atol (List.take (j + 1) (45 :: decimal x.toInt.natAbs)) =
              clampLong (-(digitsValue ((decimal x.toInt.natAbs).take j) : Int)) := rfl
          rw [hatol, toInt_clampLong (by omega) (by omega)] at hint
          omega
    · rw [printLong, if_neg hneg] at hint hj
      have hsmall := digitsValue_take_decimal hj
      rw [atol_digits fun c hc => isdigit_of_mem_decimal (List.mem_of_mem_take hc),
        toInt_clampLong (by omega) (by omega)] at hint
      exact Int64.toInt_inj.mp (show x.toInt = 0 by omega)
  · rintro rfl
    have hone : (printLong 0).length = 1 := rfl
    obtain rfl : j = 0 := by omega
    rfl

/-- The parts of a line that are left when its text is cut off inside of it. -/
theorem parseLine_take_printNode {n : HashNode} {j : Nat} (hj : j < (printNode n).length) :
    parseLine ((printNode n).take j) =
      if j ≤ (printLong n.key).length then none
      else some ⟨n.key, atol ((printLong n.value).take (j - (printLong n.key).length - 1))⟩ := by
  have hsplit : printNode n = printLong n.key ++ 44 :: (printLong n.value ++ [10]) := by
    simp only [printNode, List.append_assoc, List.cons_append, List.nil_append]
  rw [hsplit] at hj ⊢
  split
  · next hle =>
    rw [List.take_append_of_le_length hle]
    have hcomma : ∀ c ∈ (printLong n.key).take j, c ≠ 44 ∧ c ≠ 0 := by
      intro c hc
      have hmem := mem_printLong (List.mem_of_mem_take hc)
      exact ⟨hmem.1, hmem.2.2⟩
    have hline : ((printLong n.key).take j).takeWhile (· != 0) = (printLong n.key).take j :=
      List.takeWhile_eq_self_iff.mpr fun c hc => bne_iff_ne.mpr (hcomma c hc).2
    have hsep : strsep ((printLong n.key).take j) = ((printLong n.key).take j, none) := by
      unfold strsep
      rw [List.dropWhile_eq_nil_iff.mpr fun c hc => bne_iff_ne.mpr (hcomma c hc).1]
    unfold parseLine
    simp only [hline, hsep]
  · next hgt =>
    obtain ⟨m, rfl⟩ := Nat.exists_eq_add_of_lt (Nat.lt_of_not_le hgt)
    have hm : m ≤ (printLong n.value).length := by
      simp only [List.length_append, List.length_cons, List.length_nil] at hj
      omega
    have htake : (printLong n.key ++ 44 :: (printLong n.value ++ [10])).take
        ((printLong n.key).length + m + 1) = printLong n.key ++ 44 :: (printLong n.value).take m := by
      rw [Nat.add_assoc, List.take_length_add_append, List.take_succ_cons,
        List.take_append_of_le_length hm]
    have hsub : (printLong n.key).length + m + 1 - (printLong n.key).length - 1 = m := by omega
    rw [htake, hsub]
    refine parseLine_key n.key fun c hc => ?_
    have hmem := mem_printLong (List.mem_of_mem_take hc)
    exact ⟨hmem.1, hmem.2.2⟩

/-- A text without a newline is one line, if it is not empty. -/
private theorem getlines_of_not_mem {s : Bytes} (h : 10 ∉ s) :
    getlines s = if s = [] then [] else [s] := by
  induction s with
  | nil => rfl
  | cons c s ih =>
      rw [List.mem_cons, not_or] at h
      have hc : c ≠ 10 := fun he => h.1 he.symm
      simp only [getlines, hc, if_false, ih h.2, List.cons_ne_nil]
      cases s with
      | nil => rfl
      | cons d s => simp only [List.cons_ne_nil, if_false]

/-- The newline of a printed line is its last byte. -/
private theorem not_mem_take_printNode {n : HashNode} {j : Nat} (hj : j < (printNode n).length) :
    (10 : UInt8) ∉ (printNode n).take j := by
  have hsplit : printNode n = (printLong n.key ++ [44] ++ printLong n.value) ++ [10] := rfl
  have hlen : j ≤ (printLong n.key ++ [44] ++ printLong n.value).length := by
    rw [hsplit, List.length_append, List.length_singleton] at hj
    exact Nat.le_of_lt_succ hj
  rw [hsplit, List.take_append_of_le_length hlen]
  intro h
  have hmem := List.mem_of_mem_take h
  simp only [List.mem_append, List.mem_singleton] at hmem
  rcases hmem with (hmem | hmem) | hmem
  · exact (mem_printLong hmem).2.1 rfl
  · exact absurd hmem (by decide)
  · exact (mem_printLong hmem).2.1 rfl

/-- Reading the text ends, with both fields on every line, and inserts nothing but the given nodes. -/
def Recovers (nodes : List HashNode) (text : Bytes) : Prop :=
  ∃ ns, (getlines text).mapM parseLine = some ns ∧ (∀ n ∈ ns, n ∈ nodes) ∧
    ∀ t : Chains, ∃ t', t.initHt.readFromDatabase text = some t'

/-- The line of a node is cut where nothing of it is lost: in front of it, before its newline, or behind
its comma if the value is zero. -/
def HashNode.CutFine (n : HashNode) (j : Nat) : Prop :=
  j = 0 ∨ j + 1 = (printNode n).length ∨ n.value = 0 ∧ j = (printLong n.key).length + 1

/-- The line in which the text of the nodes is cut, if there is one, is cut there. -/
def CutFine (nodes : List HashNode) (k : Nat) : Prop :=
  ∀ front n rest j, nodes = front ++ n :: rest → j < (printNode n).length →
    k = (front.flatMap printNode).length + j → n.CutFine j

/-- The fields of a line that is cut are those of its node where nothing of it is lost. -/
theorem HashNode.cutFine_iff {n : HashNode} {j : Nat} (hj : j < (printNode n).length) (h0 : j ≠ 0) :
    n.CutFine j ↔ parseLine ((printNode n).take j) = some n := by
  have hlen : (printNode n).length = (printLong n.key).length + (printLong n.value).length + 2 := by
    simp only [printNode, List.length_append, List.length_singleton]
    omega
  rw [parseLine_take_printNode hj]
  split
  · next hle =>
    refine iff_of_false ?_ (Option.some_ne_none n).symm
    rintro (rfl | hend | ⟨-, rfl⟩)
    · exact h0 rfl
    · omega
    · omega
  · next hgt =>
    generalize hm : j - (printLong n.key).length - 1 = m
    have hnode : some (⟨n.key, atol ((printLong n.value).take m)⟩ : HashNode) = some n ↔
        atol ((printLong n.value).take m) = n.value := by
      constructor
      · exact fun h => congrArg HashNode.value (Option.some.inj h)
      · intro h
        rw [h]
    rw [hnode]
    by_cases hall : m = (printLong n.value).length
    · rw [hall, List.take_length]
      have hwhole : atol (printLong n.value ++ []) = n.value :=
        atol_printLong n.value fun c hc => by cases hc
      rw [List.append_nil] at hwhole
      exact iff_of_true (Or.inr (Or.inl (by omega))) hwhole
    · have hlt : m < (printLong n.value).length := by omega
      rw [atol_take_printLong hlt]
      constructor
      · rintro (rfl | hend | ⟨hzero, -⟩)
        · exact absurd rfl h0
        · omega
        · exact hzero
      · intro hzero
        have hone : (printLong n.value).length = 1 := by rw [hzero]; rfl
        exact Or.inr (Or.inr ⟨hzero, by omega⟩)

/-- Fields that are read are inserted. -/
theorem readFromDatabase_of_fields {text : Bytes} {ns : List HashNode}
    (h : (getlines text).mapM parseLine = some ns) (ht : HashTable) :
    readFromDatabase text ht = some (ht.putAll ns) := by
  unfold readFromDatabase
  generalize getlines text = lines at h
  induction lines generalizing ns ht with
  | nil =>
      obtain rfl := Option.some.inj h
      rfl
  | cons line lines ih =>
      rw [List.mapM_cons] at h
      obtain ⟨n, hn, h⟩ := Option.bind_eq_some_iff.mp h
      obtain ⟨ms, hms, h⟩ := Option.bind_eq_some_iff.mp h
      obtain rfl := Option.some.inj h
      rw [List.foldlM_cons, readLine_eq, hn]
      exact ih _ hms

/-- The fields of printed lines and of what comes behind them. -/
private theorem mapM_printNode_append (front : List HashNode) (lines : List Bytes) :
    (front.map printNode ++ lines).mapM parseLine = (lines.mapM parseLine).map (front ++ ·) := by
  induction front with
  | nil => simp
  | cons n front ih =>
      rw [List.map_cons, List.cons_append, List.mapM_cons, parseLine_printNode, ih]
      cases lines.mapM parseLine <;> rfl

private theorem recovers_of_fields {nodes ns : List HashNode} {text : Bytes}
    (h : (getlines text).mapM parseLine = some ns) (hsub : ∀ n ∈ ns, n ∈ nodes) :
    Recovers nodes text := by
  refine ⟨ns, h, hsub, fun t => ?_⟩
  obtain ⟨t', l, hread, -⟩ := (Chains.Spells.initHt t).readFromDatabase text
    (readFromDatabase_of_fields h initHt)
  exact ⟨t', hread⟩

/-- The text is cut inside of the line of a node. -/
private theorem recovers_cut_iff {front rest : List HashNode} {n : HashNode} {j : Nat}
    (hkeys : ((front ++ n :: rest).map (·.key)).Nodup) (hj : j < (printNode n).length) :
    Recovers (front ++ n :: rest) (front.flatMap printNode ++ (printNode n).take j) ↔ n.CutFine j := by
  have hfields : (getlines (front.flatMap printNode ++ (printNode n).take j)).mapM parseLine =
      ((getlines ((printNode n).take j)).mapM parseLine).map (front ++ ·) := by
    rw [getlines_printNodes_append, mapM_printNode_append]
  have hfront : ∀ m ∈ front, m ∈ front ++ n :: rest := fun m hm => List.mem_append_left _ hm
  rw [getlines_of_not_mem (not_mem_take_printNode hj)] at hfields
  by_cases h0 : j = 0
  · subst h0
    refine iff_of_true (recovers_of_fields hfields fun m hm => ?_) (Or.inl rfl)
    have hm' : m ∈ front ++ [] := hm
    rw [List.append_nil] at hm'
    exact hfront m hm'
  · have hpart : (printNode n).take j ≠ [] := by
      intro hnil
      have hlen := congrArg List.length hnil
      rw [List.length_take, List.length_nil] at hlen
      omega
    rw [if_neg hpart, List.mapM_cons, List.mapM_nil] at hfields
    rw [n.cutFine_iff hj h0]
    constructor
    · rintro ⟨ns, hns, hsub, -⟩
      rw [hfields] at hns
      cases hparse : parseLine ((printNode n).take j) with
      | none =>
          rw [hparse] at hns
          cases hns
      | some m =>
          rw [hparse] at hns
          obtain rfl := Option.some.inj hns
          have hm : m ∈ front ++ n :: rest := hsub m (List.mem_append_right _ List.mem_cons_self)
          have hkey : m.key = n.key := by
            rw [parseLine_take_printNode hj] at hparse
            split at hparse
            · cases hparse
            · rw [← Option.some.inj hparse]
          rw [List.inj_on_of_nodup_map hkeys hm (List.mem_append_right _ List.mem_cons_self) hkey]
    · intro hparse
      rw [hparse] at hfields
      refine recovers_of_fields hfields fun m hm => ?_
      rcases List.mem_append.mp hm with hm | hm
      · exact hfront m hm
      · obtain rfl := List.mem_singleton.mp hm
        exact List.mem_append_right _ List.mem_cons_self

/-- A first part of what `dump` writes recovers exactly when the line in which it ends is cut where
nothing of it is lost. -/
theorem torn_dump_recovers_iff (t₀ : Chains) (ns : List HashNode) (k : Nat) :
    ∃ t text, t₀.initHt.putAll ns = some t ∧ t.dump = some text ∧
      (Recovers (initHt.putAll ns).nodes (text.take k) ↔ CutFine (initHt.putAll ns).nodes k) := by
  obtain ⟨t, l, hput, h⟩ := (Chains.Spells.initHt t₀).putAll ns
  refine ⟨t, _, hput, h.dump, ?_⟩
  have hkeys := (regular_initHt.putAll ns).nodup_nodes
  rw [dumpText_eq]
  generalize (initHt.putAll ns).nodes = nodes at hkeys ⊢
  constructor
  · rintro hrecovers front n rest j rfl hj rfl
    have htake : ((front ++ n :: rest).flatMap printNode).take
        ((front.flatMap printNode).length + j) =
          front.flatMap printNode ++ (printNode n).take j := by
      rw [List.flatMap_append, List.take_length_add_append, List.flatMap_cons,
        List.take_append_of_le_length (Nat.le_of_lt hj)]
    rw [htake] at hrecovers
    exact (recovers_cut_iff hkeys hj).mp hrecovers
  · intro hcut
    rcases take_flatMap_cases printNode nodes k with hall | ⟨front, n, rest, j, rfl, hj, rfl, htake⟩
    · have hwhole := (List.take_prefix k (nodes.flatMap printNode)).eq_of_length_le hall.length_le
      rw [hwhole]
      have hfields := mapM_printNode_append nodes []
      rw [List.append_nil, List.mapM_nil] at hfields
      have hread : (getlines (nodes.flatMap printNode)).mapM parseLine = some nodes := by
        rw [getlines_printNodes, hfields]
        exact congrArg some (List.append_nil nodes)
      exact recovers_of_fields hread fun n hn => hn
    · rw [htake]
      exact (recovers_cut_iff hkeys hj).mpr (hcut front n rest j rfl hj rfl)

/-- The table with the value 7 for the key 5, of whose line only the first byte was written. -/
theorem torn_dump_lost :
    ¬ Recovers (initHt.putAll [⟨5, 7⟩]).nodes ((dumpText (initHt.putAll [⟨5, 7⟩])).take 1) := by
  rintro ⟨ns, hns, -⟩
  have hnone : (getlines ((dumpText (initHt.putAll [⟨5, 7⟩])).take 1)).mapM parseLine = none := by
    decide +kernel
  rw [hnone] at hns
  cases hns

end Afs
