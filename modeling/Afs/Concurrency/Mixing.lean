import Afs.Concurrency.Refinement

/-!
# Stores of one file at the same time

Every store truncates the file and writes at the start of it, each in a call of its own. The file
ends up with the writes that came after the last truncation, laid over each other in order. That
is one whole buffer for all contents exactly if one of these writes is at least as long as all
before it and none of those after it writes a byte.
-/

namespace Afs

open Posix Interaction Transition

/-- A request that carries the whole of a buffer. -/
def Upload.whole (d : Bytes) (h : d.length < 2 ^ 31) : Upload where
  size := Int32.ofInt d.length
  buf := d
  fits := by
    rw [Int32.toInt_ofInt_of_le (by omega) (by omega)]
    omega

@[simp] theorem Upload.bytes_whole (d : Bytes) (h : d.length < 2 ^ 31) :
    (Upload.whole d h).bytes = d := by
  have hs : (Int32.ofInt d.length).toInt = d.length :=
    Int32.toInt_ofInt_of_le (by omega) (by omega)
  simp only [Upload.bytes, Upload.whole, hs, Int.toNat_natCast, List.take_length]

section Landed

variable {ι : Type} [DecidableEq ι]

/-- One more call in a list of calls and the writes that landed since the last truncation: the
first call of a store truncates and the second one writes. -/
def landNext (s : List ι × List ι) (i : ι) : List ι × List ι :=
  (s.1 ++ [i],
    if s.1.count i = 0 then [] else if s.1.count i = 1 then s.2 ++ [i] else s.2)

/-- The stores whose writes landed after the last truncation, from the order of the calls. -/
def landed (l : List ι) : List ι := (l.foldl landNext ([], [])).2

private theorem foldl_landNext_fst (l : List ι) : (l.foldl landNext ([], [])).1 = l := by
  induction l using List.reverseRecOn with
  | nil => rfl
  | append_singleton l i ih => simp only [List.foldl_append, List.foldl_cons, List.foldl_nil,
      landNext, ih]

theorem landed_concat (l : List ι) (i : ι) : landed (l ++ [i]) =
    if l.count i = 0 then [] else if l.count i = 1 then landed l ++ [i] else landed l := by
  simp only [landed, List.foldl_append, List.foldl_cons, List.foldl_nil, landNext,
    foldl_landNext_fst]

/-- If nothing has landed since the last truncation, its store has not written yet. -/
theorem exists_count_of_landed {l : List ι} (hl : l ≠ []) (h : landed l = []) :
    ∃ i, l.count i = 1 := by
  induction l using List.reverseRecOn with
  | nil => exact absurd rfl hl
  | append_singleton l i ih =>
      rw [landed_concat] at h
      by_cases h0 : l.count i = 0
      · exact ⟨i, by rw [List.count_append, h0, List.count_singleton_self]⟩
      · rw [if_neg h0] at h
        by_cases h1 : l.count i = 1
        · rw [if_pos h1] at h
          exact absurd h (by simp)
        · rw [if_neg h1] at h
          have hne : l ≠ [] := by
            rintro rfl
            exact h0 rfl
          obtain ⟨j, hj⟩ := ih hne h
          have hji : i ≠ j := by
            rintro rfl
            exact h1 hj
          exact ⟨j, by rw [List.count_append, hj, List.count_singleton, if_neg (by simpa using hji)]⟩

end Landed

/-- Buffers written at the start of an empty file, one after the other. -/
def pile {ι : Type} (d : ι → Bytes) (l : List ι) : Bytes := overwriteAll [] (l.map fun i => (0, d i))

/-- Some store in the list is at least as long as all before it, and those after it are empty. -/
def Prevails {ι : Type} (len : ι → ℕ) (l : List ι) : Prop :=
  ∃ l₁ i l₂, l = l₁ ++ i :: l₂ ∧ (∀ j ∈ l₁, len j ≤ len i) ∧ ∀ j ∈ l₂, len j = 0

section Pile

variable {ι : Type} {d : ι → Bytes} {l : List ι} {i : ι}

theorem pile_concat (d : ι → Bytes) (l : List ι) (i : ι) :
    pile d (l ++ [i]) = overwrite (pile d l) 0 (d i) := by
  simp only [pile, List.map_append, List.map_cons, List.map_nil, overwriteAll_append,
    overwriteAll_singleton]

/-- A pile is at most as high as a bound on its buffers. -/
theorem length_pile_le {n : ℕ} (h : ∀ j ∈ l, (d j).length ≤ n) : (pile d l).length ≤ n := by
  induction l using List.reverseRecOn with
  | nil => exact Nat.zero_le n
  | append_singleton l i ih =>
      rw [pile_concat]
      have hl := ih fun j hj => h j (List.mem_append_left _ hj)
      have hi := h i (List.mem_append_right _ List.mem_cons_self)
      have hle := length_overwrite_le (pile d l) 0 (d i)
      omega

/-- A pile is at least as high as each of its buffers. -/
theorem le_length_pile (h : i ∈ l) : (d i).length ≤ (pile d l).length := by
  induction l using List.reverseRecOn with
  | nil => cases h
  | append_singleton l j ih =>
      rw [pile_concat]
      have hj := le_length_overwrite (pile d l) 0 (d j)
      rcases List.mem_append.mp h with hl | hl
      · have := ih hl
        omega
      · obtain rfl := List.mem_singleton.mp hl
        by_cases hd : d i = []
        · rw [hd]
          exact Nat.zero_le _
        · have := hj.2 hd
          omega

/-- Empty buffers on top do not show. -/
theorem pile_append_empty {l₂ : List ι} (h : ∀ j ∈ l₂, (d j).length = 0) :
    pile d (l ++ l₂) = pile d l := by
  induction l₂ using List.reverseRecOn with
  | nil => rw [List.append_nil]
  | append_singleton l₂ j ih =>
      have hj : d j = [] :=
        List.eq_nil_of_length_eq_zero (h j (List.mem_append_right _ List.mem_cons_self))
      rw [← List.append_assoc, pile_concat, hj, overwrite_nil]
      exact ih fun m hm => h m (List.mem_append_left _ hm)

/-- A store that prevails leaves exactly its buffer. -/
theorem pile_of_prevails (h : Prevails (fun i => (d i).length) l) : ∃ i, pile d l = d i := by
  obtain ⟨l₁, i, l₂, rfl, hbefore, hafter⟩ := h
  refine ⟨i, ?_⟩
  rw [← List.singleton_append, ← List.append_assoc, pile_append_empty hafter, pile_concat]
  exact overwrite_zero_of_le (length_pile_le hbefore)

/-- Without such a store the last write that has bytes lies on top of a longer one. -/
theorem exists_covered_of_not_prevails {len : ι → ℕ} (hl : l ≠ []) (h : ¬ Prevails len l) :
    ∃ l₁ i l₂ j, l = l₁ ++ i :: l₂ ∧ 0 < len i ∧ j ∈ l₁ ∧ len i < len j ∧
      ∀ m ∈ l₂, len m = 0 := by
  induction l using List.reverseRecOn with
  | nil => exact absurd rfl hl
  | append_singleton l i ih =>
      by_cases hall : ∀ j ∈ l, len j ≤ len i
      · exact absurd ⟨l, i, [], rfl, hall, nofun⟩ h
      · obtain ⟨j, hj, hlt⟩ : ∃ j ∈ l, len i < len j := by
          simpa only [not_forall, not_le, exists_prop] using hall
        by_cases hi : len i = 0
        · have hl' : l ≠ [] := List.ne_nil_of_mem hj
          have hn : ¬ Prevails len l := by
            rintro ⟨l₁, m, l₂, rfl, hb, ha⟩
            refine h ⟨l₁, m, l₂ ++ [i], by simp, hb, ?_⟩
            intro n hn
            rcases List.mem_append.mp hn with hn | hn
            · exact ha n hn
            · rw [List.mem_singleton.mp hn, hi]
          obtain ⟨l₁, m, l₂, n, rfl, hm, hn1, hlt', ha⟩ := ih hl' hn
          refine ⟨l₁, m, l₂ ++ [i], n, by simp, hm, hn1, hlt', ?_⟩
          intro p hp
          rcases List.mem_append.mp hp with hp | hp
          · exact ha p hp
          · rw [List.mem_singleton.mp hp, hi]
        · exact ⟨l, i, [], j, rfl, Nat.pos_of_ne_zero hi, hj, hlt, nofun⟩

/-- Contents of the given lengths that do not come out whole. -/
theorem exists_mixed [DecidableEq ι] {len : ι → ℕ} (hl : l ≠ []) (h : ¬ Prevails len l) :
    ∃ d : ι → Bytes, (∀ i, (d i).length = len i) ∧ ∀ i, pile d l ≠ d i := by
  obtain ⟨l₁, i, l₂, j, rfl, hpos, hj, hlt, hafter⟩ := exists_covered_of_not_prevails hl h
  let d : ι → Bytes := fun m => List.replicate (len m) (if m = i then 1 else 0)
  have hd : ∀ m, (d m).length = len m := fun m => List.length_replicate
  refine ⟨d, hd, ?_⟩
  intro m hm
  have hne : d i ≠ [] := List.ne_nil_of_length_pos (by rw [hd]; exact hpos)
  rw [← List.singleton_append, ← List.append_assoc,
    pile_append_empty (fun n hn => (hd n).trans (hafter n hn)), pile_concat,
    overwrite_of_ne_nil _ _ hne, splice_zero] at hm
  by_cases hmi : m = i
  · subst hmi
    have hlow := le_length_pile (d := d) hj
    have hlen := congrArg List.length hm
    rw [List.length_append, List.length_drop] at hlen
    rw [hd] at hlow hlen
    omega
  · have hhead := congrArg List.head? hm
    have hi : (d i).head? = some 1 := by
      simp only [d, if_true, List.head?_replicate, Nat.pos_iff_ne_zero.mp hpos, if_false]
    have hzero : (d m).head? ≠ some 1 := by
      simp only [d, hmi, if_false, List.head?_replicate]
      split <;> simp
    rw [List.head?_append, hi, Option.some_or] at hhead
    exact hzero hhead.symm

end Pile

/-- The handlers when all of them are stores. -/
def Handlers.storing {ι : Type} (H : Handlers ι) (u : ι → Upload) : Handlers ι :=
  { H with job := fun i => .store (u i) }

/-- The phase of a store after so many calls. -/
def Phase.After (d : Bytes) : ℕ → Phase → Prop
  | 0, φ => φ = .start
  | 1, φ => φ = .opened
  | 2, φ => φ = .held d
  | 3, φ => ∃ t, φ = .timed d t
  | _, φ => ∃ t, φ = .done ⟨0, d, t⟩

section Stores

variable {ι : Type} [DecidableEq ι] {H : Handlers ι} {u : ι → Upload}

/-- The file after some calls of the stores: what landed since the last truncation. -/
def Piled (u : ι → Upload) (l : List ι) (file : Option Content) : Prop :=
  l ≠ [] → ∃ f, file = some f ∧ f.bytes = pile (fun i => (u i).bytes) (landed l)

/-- A store that has not finished makes its next call. -/
theorem Traffic.step_store {T : Traffic ι} {l : List ι} {i : ι} (now : Timespec)
    (hφ : (T.phase i).After (u i).bytes (l.count i)) (hlt : l.count i < 4)
    (hfile : Piled u l T.file) :
    ∃ file φ, T.step (H.storing u) (i, now) = some ⟨file, Function.update T.phase i φ⟩ ∧
      φ.After (u i).bytes (l.count i + 1) ∧ Piled u (l ++ [i]) file := by
  have hsome : l.count i ≠ 0 → ∃ f, T.file = some f ∧
      f.bytes = pile (fun i => (u i).bytes) (landed l) := by
    intro hne
    apply hfile
    rintro rfl
    exact hne rfl
  simp only [Traffic.step, Handlers.storing, Piled, landed_concat]
  generalize l.count i = n at hφ hlt hsome ⊢
  rcases (by omega : n = 0 ∨ n = 1 ∨ n = 2 ∨ n = 3) with rfl | rfl | rfl | rfl
  · have h0 : T.phase i = .start := hφ
    rw [h0]
    exact ⟨_, _, rfl, rfl, fun _ => ⟨_, rfl, rfl⟩⟩
  · have h1 : T.phase i = .opened := hφ
    obtain ⟨f, hf, hb⟩ := hsome Nat.one_ne_zero
    rw [h1, hf]
    refine ⟨_, _, rfl, rfl, fun _ => ⟨_, rfl, ?_⟩⟩
    simp only [Nat.one_ne_zero, if_false, if_true, pile_concat, hb]
  · have h2 : T.phase i = .held (u i).bytes := hφ
    obtain ⟨f, hf, hb⟩ := hsome (by omega)
    rw [h2, hf]
    exact ⟨_, _, rfl, ⟨_, rfl⟩, fun _ => ⟨f, rfl, hb⟩⟩
  · obtain ⟨t, h3⟩ : ∃ t, T.phase i = .timed (u i).bytes t := hφ
    obtain ⟨f, hf, hb⟩ := hsome (by omega)
    rw [h3, hf]
    exact ⟨_, _, rfl, ⟨_, rfl⟩, fun _ => ⟨f, rfl, hb⟩⟩

/-- Stores never wait for each other: any order in which none makes more than four calls is a run,
and it leaves the file with what landed since the last truncation. -/
theorem Traffic.run_stores (file : Option Content) {es : List (ι × Timespec)}
    (hes : ∀ i, (es.map Prod.fst).count i ≤ 4) :
    ∃ T, Run (Traffic.step (H.storing u)) (fun _ _ => True) (Traffic.start file) es T ∧
      (∀ i, (T.phase i).After (u i).bytes ((es.map Prod.fst).count i)) ∧
      Piled u (es.map Prod.fst) T.file := by
  induction es using List.reverseRecOn with
  | nil => exact ⟨_, Run.nil, fun _ => rfl, fun h => absurd rfl h⟩
  | append_singleton es e ih =>
      obtain ⟨i, now⟩ := e
      simp only [List.map_append, List.map_cons, List.map_nil] at hes ⊢
      have hle : ∀ j, (es.map Prod.fst).count j ≤ 4 := by
        intro j
        have := hes j
        rw [List.count_append] at this
        omega
      obtain ⟨T, hrun, hphase, hfile⟩ := ih hle
      have hlt : (es.map Prod.fst).count i < 4 := by
        have := hes i
        rw [List.count_append, List.count_singleton_self] at this
        omega
      obtain ⟨file', φ, hstep, hφ, hfile'⟩ := Traffic.step_store (H := H) now
        (hphase i) hlt hfile
      refine ⟨_, hrun.snoc trivial hstep, ?_, hfile'⟩
      intro j
      rw [List.count_append]
      by_cases hj : j = i
      · subst hj
        simpa only [Function.update_self, List.count_singleton_self] using hφ
      · have hij : ¬ (i == j) = true := by simpa using Ne.symm hj
        simpa only [Function.update_of_ne hj, List.count_singleton, if_neg hij, Nat.add_zero]
          using hphase j

namespace Handlers

/-- Complete stores in any order end with replies without an error, and the file has what landed
since the last truncation. -/
theorem run_stores {s : Proc} (hr : H.Ready s) {es : List (ι × Timespec)}
    (hes : ∀ i, (es.map Prod.fst).count i = 4) (u : ι → Upload) :
    ∃ P, Run step (fun _ _ => True) ((H.storing u).start s) es P ∧
      (∀ i, ∃ x, P.result i = some x ∧ x.error = 0) ∧
      Piled u (es.map Prod.fst) (content H.path P.state) := by
  have hready : (H.storing u).Ready s := ⟨hr.faults, hr.isDir, hr.parent⟩
  obtain ⟨T, hT, hphase, hfile⟩ := Traffic.run_stores (H := H) (u := u) (content H.path s)
    fun i => Nat.le_of_eq (hes i)
  obtain ⟨P, hP, fd, ha⟩ := hT.transfer_back (fun P T => ∃ fd, (H.storing u).Agrees fd P T)
    ⟨_, (H.storing u).agrees_start hready⟩ fun P T e h => (H.storing u).step_rel e h
  refine ⟨P, hP, ?_, ?_⟩
  · intro i
    obtain ⟨t, ht⟩ : ∃ t, T.phase i = .done ⟨0, (u i).bytes, t⟩ := by
      have h4 := hphase i
      rwa [hes i] at h4
    have hret := (ht ▸ ha.left i).of_done
    exact ⟨_, Pool.result_eq_some.mpr hret, rfl⟩
  · have hc : content H.path P.state = T.file := ha.file
    rw [hc]
    exact hfile

/-- Which orders of the calls keep the stores of one file apart, whatever the bytes are. -/
theorem stores_leave_one_whole_iff [Nonempty ι] {s : Proc} (hr : H.Ready s)
    {es : List (ι × Timespec)} (hes : ∀ i, (es.map Prod.fst).count i = 4) {len : ι → ℕ}
    (hlen : ∀ i, len i < 2 ^ 31) :
    (∀ u : ι → Upload, (∀ i, (u i).bytes.length = len i) →
      ∃ P f, Run step (fun _ _ => True) ((H.storing u).start s) es P ∧
        (∀ i, ∃ x, P.result i = some x ∧ x.error = 0) ∧
        content H.path P.state = some f ∧ ∃ i, f.bytes = (u i).bytes) ↔
      Prevails len (landed (es.map Prod.fst)) := by
  have hcalls : es.map Prod.fst ≠ [] := by
    intro hnil
    have h4 := hes (Classical.arbitrary ι)
    rw [hnil] at h4
    cases h4
  constructor
  · intro h
    by_contra hprev
    have hlanded : landed (es.map Prod.fst) ≠ [] := by
      intro hnil
      obtain ⟨i, hi⟩ := exists_count_of_landed hcalls hnil
      rw [hes i] at hi
      omega
    obtain ⟨d, hd, hmix⟩ := exists_mixed hlanded hprev
    have hshort : ∀ i, (d i).length < 2 ^ 31 := fun i => (hd i).symm ▸ hlen i
    let u : ι → Upload := fun i => .whole (d i) (hshort i)
    obtain ⟨P, f, hP, -, hf, i, hi⟩ := h u fun i => by rw [Upload.bytes_whole]; exact hd i
    obtain ⟨Q, hQ, -, hpile⟩ := run_stores hr hes u
    obtain rfl := hP.unique hQ
    obtain ⟨g, hg, hb⟩ := hpile hcalls
    obtain rfl := Option.some.inj (hf.symm.trans hg)
    refine hmix i ?_
    simpa only [u, Upload.bytes_whole] using hb.symm.trans hi
  · intro hprev u hu
    obtain ⟨P, hP, hdone, hpile⟩ := run_stores hr hes u
    obtain ⟨f, hf, hb⟩ := hpile hcalls
    have hprev' : Prevails (fun i => (u i).bytes.length) (landed (es.map Prod.fst)) := by
      simpa only [hu] using hprev
    obtain ⟨i, hi⟩ := pile_of_prevails hprev'
    exact ⟨P, f, hP, hdone, hf, i, hb.trans hi⟩

end Handlers

end Stores

/-- Two bytes from one client and one byte from the other. -/
def sampleUploads (i : Bool) : Upload :=
  if i then .whole [5] (by decide) else .whole [3, 4] (by decide)

namespace Handlers

/-- The longer store writes last, so its buffer is what stays. -/
theorem stores_leave_one_whole_longer :
    ∃ es P f, Run step (fun _ _ => True) ((sampleHandlers.storing sampleUploads).start
        sampleBoot.server) es P ∧
      (∀ i, ∃ x, P.result i = some x ∧ x.error = 0) ∧
      content sampleHandlers.path P.state = some f ∧ ∃ i, f.bytes = (sampleUploads i).bytes := by
  have hes : ∀ i, ((sampleTurns [false, true, true, false, true, false, false, true]).map
      Prod.fst).count i = 4 := by
    decide
  have hlen : ∀ i, (sampleUploads i).bytes.length < 2 ^ 31 := by decide
  refine ⟨_, (stores_leave_one_whole_iff ready_sampleHandlers hes hlen).mpr ?_ sampleUploads
    fun _ => rfl⟩
  exact ⟨[true], false, [], by decide, by decide, nofun⟩

/-- Both stores truncate before either writes, and the shorter one writes last: the file has its
byte followed by the rest of the longer buffer. -/
theorem stores_mix :
    ∃ es P f, (∀ i, (es.map Prod.fst).count i = 4) ∧
      Run step (fun _ _ => True) ((sampleHandlers.storing sampleUploads).start sampleBoot.server)
        es P ∧
      (∀ i, ∃ x, P.result i = some x ∧ x.error = 0) ∧
      content sampleHandlers.path P.state = some f ∧ ∀ i, f.bytes ≠ (sampleUploads i).bytes := by
  have hes : ∀ i, ((sampleTurns [false, true, false, true, false, true, false, true]).map
      Prod.fst).count i = 4 := by
    decide
  obtain ⟨P, hP, hdone, hpile⟩ := run_stores ready_sampleHandlers hes sampleUploads
  obtain ⟨f, hf, hb⟩ := hpile nofun
  refine ⟨_, P, f, hes, hP, hdone, hf, ?_⟩
  rw [hb]
  decide

end Handlers

end Afs
