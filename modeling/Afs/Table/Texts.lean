import Afs.Table.Torn

/-!
# Whatever is in the database file

`database.txt` can hold anything: a torn dump, or what somebody typed. A start survives it exactly if every
line has one comma in front of its first zero byte. The table then has what the lines say, a later line
overriding an earlier one of the same key, and its own dump is read as the same table ever after.
-/

namespace Afs

open Posix Interaction

/-- A string up to its first comma, and what is behind the comma. -/
private theorem strsep_cases (s : Bytes) :
    44 ∉ s ∧ strsep s = (s, none) ∨ ∃ a b, s = a ++ 44 :: b ∧ 44 ∉ a ∧ strsep s = (a, some b) := by
  have hfront : (44 : UInt8) ∉ s.takeWhile (· != 44) := by
    intro h
    exact absurd (List.mem_takeWhile_imp h) (by decide)
  have hs := List.takeWhile_append_dropWhile (p := (· != 44)) (l := s)
  cases hd : s.dropWhile (· != 44) with
  | nil =>
      rw [hd, List.append_nil] at hs
      refine Or.inl ⟨by rwa [hs] at hfront, ?_⟩
      unfold strsep
      rw [hd]
  | cons c rest =>
      have hc : c = 44 := by
        have := List.head?_dropWhile_not (· != 44) s
        rw [hd] at this
        simpa using this
      subst hc
      rw [hd] at hs
      refine Or.inr ⟨_, rest, hs.symm, hfront, ?_⟩
      unfold strsep
      rw [hd]

/-- A line is read if it has one comma. -/
theorem parseLine_isSome (line : Bytes) :
    (parseLine line).isSome ↔ (line.takeWhile (· != 0)).count 44 = 1 := by
  unfold parseLine
  generalize line.takeWhile (· != 0) = s
  rcases strsep_cases s with ⟨hno, hs⟩ | ⟨a, b, rfl, ha, hs⟩
  · simp [hs, List.count_eq_zero_of_not_mem hno]
  · have hcount : (a ++ 44 :: b).count (44 : UInt8) = b.count 44 + 1 := by
      simp [List.count_eq_zero_of_not_mem ha]
    rcases strsep_cases b with ⟨hno, hb⟩ | ⟨a', b', rfl, -, hb⟩
    · simp [hs, hb, hcount, List.count_eq_zero_of_not_mem hno]
    · simp [hs, hb, hcount]

/-- The fields of the lines of a text, in their order. -/
def textNodes (text : Bytes) : List HashNode := (getlines text).filterMap parseLine

/-- All lines are read, or one of them is not. -/
private theorem mapM_parseLine (lines : List Bytes) :
    ((∀ line ∈ lines, (parseLine line).isSome) ∧ lines.mapM parseLine = some (lines.filterMap parseLine)) ∨
      ∃ front line rest, lines = front ++ line :: rest ∧ parseLine line = none := by
  induction lines with
  | nil => exact Or.inl ⟨fun _ h => absurd h List.not_mem_nil, rfl⟩
  | cons line lines ih =>
      cases h : parseLine line with
      | none => exact Or.inr ⟨[], line, lines, rfl, h⟩
      | some n =>
          rcases ih with ⟨hall, hm⟩ | ⟨front, l, rest, rfl, hl⟩
          · refine Or.inl ⟨fun l hl => ?_, ?_⟩
            · rcases List.mem_cons.mp hl with rfl | hl
              · rw [h]
                rfl
              · exact hall l hl
            · rw [List.mapM_cons, h, hm, List.filterMap_cons, h]
              rfl
          · exact Or.inr ⟨line :: front, l, rest, rfl, hl⟩

namespace Chains

/-- Where a line cannot be read the process dies, whatever was read before. -/
private theorem readFromDatabase_none {text : Bytes} {front rest : List Bytes} {line : Bytes} (t : Chains)
    (hlines : getlines text = front ++ line :: rest) (h : parseLine line = none) :
    t.readFromDatabase text = none := by
  unfold readFromDatabase
  rw [hlines, List.foldlM_append]
  cases front.foldlM (fun (t : Chains) line => (parseLine line).bind fun n => t.put n.key n.value) t with
  | none => rfl
  | some u => simp [h]

/-- Whatever is in the database file: a start survives it if every line has one comma in front of its first
zero byte, and then the table has for every name what the last line of its key says; what is dumped from it
is the text of the same table, which is read and dumped again without change. -/
theorem any_text_read (t₀ : Chains) (text : Bytes) :
    ((t₀.initHt.readFromDatabase text).isSome ↔
      ∀ line ∈ getlines text, (line.takeWhile (· != 0)).count 44 = 1) ∧
    ∀ t, t₀.initHt.readFromDatabase text = some t →
      (∀ filename, t.get filename = some (lastPut (textNodes text) (hashKey filename))) ∧
      ∃ s, t.dump = some s ∧ ∀ u₀ : Chains, ∃ u, u₀.initHt.readFromDatabase s = some u ∧ u.dump = some s ∧
        ∀ i, ∃ nodes, t.chain i = some nodes ∧ u.chain i = some nodes := by
  rcases mapM_parseLine (getlines text) with ⟨hall, hm⟩ | ⟨front, line, rest, hlines, hnone⟩
  · obtain ⟨t', l, hread, h⟩ := (Spells.initHt t₀).readFromDatabase text
      (readFromDatabase_of_fields hm Afs.initHt)
    refine ⟨iff_of_true (by rw [hread]; rfl) fun line hl => (parseLine_isSome line).mp (hall line hl), ?_⟩
    intro t ht
    obtain rfl := Option.some.inj (hread.symm.trans ht)
    refine ⟨fun filename => ?_, _, h.dump, fun u₀ => ?_⟩
    · rw [h.get, HashTable.get_putAll]
      rfl
    · obtain ⟨u, l', hload, hu⟩ := (Spells.initHt u₀).readFromDatabase _
        (readFromDatabase_dumpText (regular_initHt.putAll _))
      exact ⟨u, hload, hu.dump, fun i => ⟨_, h.read i, hu.read i⟩⟩
  · have hdead := t₀.initHt.readFromDatabase_none hlines hnone
    refine ⟨iff_of_false (by rw [hdead]; exact Bool.false_ne_true) fun hall => ?_, fun t ht => ?_⟩
    · have hline := (parseLine_isSome line).mpr (hall line (by rw [hlines]; simp))
      rw [hnone] at hline
      exact Bool.false_ne_true hline
    · cases hdead.symm.trans ht

end Chains

end Afs
