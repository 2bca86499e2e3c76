import Afs.Ops.Depth
import Afs.Ops.Filling
import Afs.Ops.Script

/-!
# Writes that fail

A write looks at the result of its positioned write only, and only after the copy was removed and the
temporary file put in its place. So a failure leaves whatever the calls before it made of the
temporary file, with the modified flag, and a success may have lost a part of the old bytes.
-/

namespace Afs

open Posix Interaction

/-- Two contents agree outside of the `n` bytes from the offset, and everywhere when `n` is zero. -/
def AgreeAround (a b : Bytes) (offset n : Nat) : Prop :=
  if n = 0 then a = b
  else resize a offset = resize b offset ∧ a.drop (offset + n) = b.drop (offset + n)

instance (a b : Bytes) (offset n : Nat) : Decidable (AgreeAround a b offset n) := by
  unfold AgreeAround
  infer_instance

/-- They are the contents on which a write of `n` bytes at the offset gives the same. -/
theorem overwrite_eq_iff (a b : Bytes) (offset : Nat) (d : Bytes) :
    overwrite a offset d = overwrite b offset d ↔ AgreeAround a b offset d.length := by
  unfold AgreeAround
  by_cases hd : d = []
  · rw [hd, overwrite_nil, overwrite_nil, List.length_nil, if_pos rfl]
  · have hn : d.length ≠ 0 := fun h => hd (List.length_eq_zero_iff.mp h)
    rw [overwrite_of_ne_nil _ _ hd, overwrite_of_ne_nil _ _ hd, if_neg hn, splice_eq_splice_iff]

namespace World

variable {ι : Type} [DecidableEq ι] {P : Params ι} {w w' : World ι}

/-- What is claimed of a write of `buffer` at `offset` to a copy with the bytes `old`: it returns, a
failure leaves the copy and the entry, and a success leaves the old bytes with the first bytes of
the buffer. -/
def WriteAtomic (P : Params ι) (w w' : World ι) (i : ι) (p : Path) (old buffer : Bytes) (offset : Nat)
    (out : Option Result) : Prop :=
  ∃ x, out = some x ∧
    (x.ret < 0 → w'.cached P i p = some old ∧ w'.recorded i p = w.recorded i p) ∧
    (0 ≤ x.ret → w'.cached P i p = some (overwrite old offset (buffer.take x.ret.toNat)))

/-- When a write keeps to it. If the temporary file does not open: one with the old bytes has been left
there, and the entry was the flag. If the positioned write fails: the copy of the old bytes is
complete, and the entry was the flag. Otherwise: the copy agrees with the old bytes around what the
positioned write moves. The file of the table itself has the text of the table in every case. -/
def WriteSpares (P : Params ι) (w : World ι) (c : Call ι) (old buffer : Bytes) (offset : Nat) : Prop :=
  let moved := (fault c.faults 6).moved buffer.length
  if c.path = databasePath then
    let text := dumpText ((w.clients c.client).ht.put (hashKey c.path) modifiedFlag)
    if Client.tmpResult c.faults buffer = -1 then
      text = old ∧ w.recorded c.client c.path = modifiedFlag
    else text = overwrite old offset (buffer.take moved)
  else if (fault c.faults 0).error ≠ none then
    ((w.disk c.client).look (getLocalTmpPath c.path (P.cache_path c.client))).map (·.bytes) = some old ∧
      w.recorded c.client c.path = modifiedFlag
  else if (fault c.faults 6).error ≠ none then
    Client.oldCopied c.junk c.faults 1 old = old ∧ w.recorded c.client c.path = modifiedFlag
  else AgreeAround (Client.oldCopied c.junk c.faults 1 old) old offset moved

theorem tmpResult_cases (fs : List Fault) (buffer : Bytes) :
    (Client.tmpResult fs buffer = -1 ∧ ((fault fs 0).error ≠ none ∨ (fault fs 6).error ≠ none)) ∨
    (Client.tmpResult fs buffer = ((fault fs 6).moved buffer.length : Int) ∧
      (fault fs 0).error = none ∧ (fault fs 6).error = none) := by
  unfold Client.tmpResult
  by_cases h : (fault fs 0).error = none ∧ (fault fs 6).error = none
  · rw [if_pos h]
    exact Or.inr ⟨rfl, h⟩
  · rw [if_neg h]
    refine Or.inl ⟨rfl, ?_⟩
    by_cases h0 : (fault fs 0).error = none
    · exact Or.inr fun h6 => h ⟨h0, h6⟩
    · exact Or.inl h0

omit [DecidableEq ι] in
/-- What a write leaves, read off by the claim: `content` is what it leaves in the copy. -/
private theorem atomic_iff_spares {c : Call ι} {x : Result} {old buffer : Bytes} {offset : Nat}
    (hret : if Client.tmpResult c.faults buffer = -1 then x.ret < 0
      else x.ret = Client.tmpResult c.faults buffer)
    (hrec : w'.recorded c.client c.path = modifiedFlag)
    (hcontent : w'.cached P c.client c.path = if c.path = databasePath then
        some (dumpText ((w.clients c.client).ht.put (hashKey c.path) modifiedFlag))
      else Client.tmpContent c.junk c.faults (((w.disk c.client).look
        (getLocalTmpPath c.path (P.cache_path c.client))).map (·.bytes)) old buffer offset) :
    w.WriteAtomic P w' c.client c.path old buffer offset (some x) ↔
      w.WriteSpares P c old buffer offset := by
  have hsplit : w.WriteAtomic P w' c.client c.path old buffer offset (some x) ↔
      (x.ret < 0 → w'.cached P c.client c.path = some old ∧
        w.recorded c.client c.path = modifiedFlag) ∧
      (0 ≤ x.ret → w'.cached P c.client c.path =
        some (overwrite old offset (buffer.take x.ret.toNat))) := by
    unfold WriteAtomic
    rw [hrec]
    constructor
    · rintro ⟨x', hx, hneg, hpos⟩
      obtain rfl := Option.some.inj hx
      exact ⟨fun h => ⟨(hneg h).1, (hneg h).2.symm⟩, hpos⟩
    · rintro ⟨hneg, hpos⟩
      exact ⟨x, rfl, fun h => ⟨(hneg h).1, (hneg h).2.symm⟩, hpos⟩
  rw [hsplit]
  unfold WriteSpares
  simp only
  rcases tmpResult_cases c.faults buffer with ⟨hres, hwhy⟩ | ⟨hres, h0, h6⟩
  · rw [if_pos hres] at hret
    have hiff : ∀ {A : Prop} {B : Prop}, ((x.ret < 0 → A) ∧ (0 ≤ x.ret → B)) ↔ A :=
      ⟨fun h => h.1 hret, fun h => ⟨fun _ => h, fun h0 => by omega⟩⟩
    rw [hiff, hcontent, hres]
    by_cases hp : c.path = databasePath
    · simp only [hp, if_true, Option.some.injEq]
    · by_cases h0 : (fault c.faults 0).error = none
      · have h6 : (fault c.faults 6).error ≠ none := hwhy.resolve_left fun h => h h0
        simp only [hp, if_false, Client.tmpContent, h0, h6, if_true, ne_eq, not_true, not_false_eq_true,
          Option.some.injEq]
      · simp only [hp, if_false, Client.tmpContent, h0, if_true, ne_eq, not_false_eq_true]
  · have hpos : 0 ≤ x.ret ∧ x.ret.toNat = (fault c.faults 6).moved buffer.length := by
      have hne : Client.tmpResult c.faults buffer ≠ -1 := by omega
      rw [if_neg hne, hres] at hret
      omega
    have hiff : ∀ {A : Prop} {B : Prop}, ((x.ret < 0 → A) ∧ (0 ≤ x.ret → B)) ↔ B :=
      ⟨fun h => h.2 hpos.1, fun h => ⟨fun hneg => by omega, fun _ => h⟩⟩
    have hne : Client.tmpResult c.faults buffer ≠ -1 := by omega
    rw [hiff, hcontent, hpos.2]
    have hlen : (buffer.take ((fault c.faults 6).moved buffer.length)).length =
        (fault c.faults 6).moved buffer.length := by
      rw [List.length_take, Nat.min_eq_left (Fault.moved_le _ _)]
    by_cases hp : c.path = databasePath
    · simp only [hp, if_true, hne, if_false, Option.some.injEq]
    · simp only [hp, if_false, Client.tmpContent, h0, h6, if_true, ne_eq, not_true,
        Option.some.injEq, overwrite_eq_iff, hlen]

/-- In every state that the mounted file systems lead to, with any faults of the calls of a write up to
its positioned write, the write is atomic exactly when it spares the old bytes. -/
theorem write_atomic_iff (hw : w.Mounted P) {c : Call ι} {k offset : Nat} {buffer old : Bytes}
    {out : Option Result} (hop : c.op = .write k buffer offset) (hb : buffer ≠ [])
    (hpath : (Event.call c).Absolute) (hlen : c.faults.length ≤ 7) (hreal : ∀ f ∈ c.faults, f.Real)
    (hcached : w.cached P c.client c.path = some old) (hx : w.perform P c = some (out, w')) :
    w.WriteAtomic P w' c.client c.path old buffer offset out ↔ w.WriteSpares P c old buffer offset := by
  obtain ⟨rest, hrest⟩ := hpath
  have hdir := hw.cacheDir c.client
  obtain ⟨f, hl, rfl⟩ := Option.map_eq_some_iff.mp hcached
  have hroom : (w.disk c.client).isDir (getLocalTmpPath c.path (P.cache_path c.client)) = false ∧
      (w.disk c.client).isDir (parent (getLocalTmpPath c.path (P.cache_path c.client))) = true := by
    rw [hrest] at hl ⊢
    exact hdir.room (by rw [hl]; exact Option.some_ne_none f)
  obtain ⟨htmp, hpar⟩ := hroom
  have hne := getLocalPath_ne_getLocalTmpPath c.path (P.cache_path c.client)
  obtain ⟨-, fh, -, he⟩ := perform_eq_some.mp hx
  have hyields : Prog.Yields (Env.exec ⟨P.root_path, c.junk⟩)
      (Client.afsWrite c.junk c.path (P.cache_path c.client) buffer offset)
      (w.state c.client c.now c.faults c.net) _ :=
    afsWrite_faulty hb hreal rfl hlen hdir.toFlatDir hl htmp hpar hne
  obtain ⟨r, t, hrun, hret, ht, hcontent⟩ := hyields
  have hprog : (c.op.prog c.junk c.path (P.cache_path c.client) fh).run
      (Env.exec ⟨P.root_path, c.junk⟩) (w.state c.client c.now c.faults c.net) =
        (some { ret := r }, t) := by
    rw [hop, Op.prog, Prog.run_bind, hrun]
    rfl
  rw [hprog] at he
  obtain ⟨rfl, rfl⟩ := Prod.mk.inj he
  refine atomic_iff_spares hret ?_ ?_
  · rw [recorded, clients_finish_self, ht, HashTable.get_put_self]
  · rw [cached, disk, clients_finish_self]
    rw [ht] at hcontent
    exact hcontent

/-- A write of two bytes to the file of the sample system, with the given faults. -/
def faultyWrite (faults : List Fault) : Call (Bool) :=
  { sampleCall false 2 (.write 0 [7, 8] 0) [] with faults := faults }

/-- The file is opened and then written to. -/
private theorem exists_faulty (faults : List Fault) (ret : Int) (cached : Option Bytes)
    (h : ((sampleBoot.step sample (.call (sampleCall false 1 .openF []))).bind fun w =>
      (w.perform sample (faultyWrite faults)).map fun y =>
        (w.cached sample false sampleFile, y.1.map (·.ret), y.2.cached sample false sampleFile)) =
      some (some [1], some ret, cached)) :
    ∃ (w w' : World (Bool)) (x : Result), w.Mounted sample ∧
      w.cached sample false sampleFile = some [1] ∧
      w.perform sample (faultyWrite faults) = some (some x, w') ∧ x.ret = ret ∧
      w'.cached sample false sampleFile = cached := by
  obtain ⟨w, hw, h⟩ := Option.bind_eq_some_iff.mp h
  obtain ⟨⟨out, w'⟩, hperf, h⟩ := Option.map_eq_some_iff.mp h
  simp only [Prod.mk.injEq] at h
  obtain ⟨hcached, hret, hcached'⟩ := h
  obtain ⟨x, rfl, hx⟩ := Option.map_eq_some_iff.mp hret
  have habs : (Event.call (sampleCall false 1 .openF [])).Absolute := ⟨cstr "f", rfl⟩
  have hr : Transition.Run (World.step sample) (fun _ e => e.Absolute) sampleBoot _ w :=
    Transition.Run.single habs hw
  exact ⟨w, w', x, ⟨_, _, hr⟩, hcached, hperf, hx, hcached'⟩

/-- A write of which only the first byte is moved. -/
theorem write_atomic_short :
    ∃ (w w' : World (Bool)) (out : Option Result), w.Mounted sample ∧
      w.perform sample (faultyWrite [.ok, .ok, .ok, .ok, .ok, .ok, .short 1]) = some (out, w') ∧
      w.WriteAtomic sample w' false sampleFile [1] [7, 8] 0 out := by
  obtain ⟨w, w', x, hw, hcached, hperf, -⟩ := exists_faulty
    [.ok, .ok, .ok, .ok, .ok, .ok, .short 1] 1 (some [7]) (by decide +kernel)
  refine ⟨w, w', some x, hw, hperf, (write_atomic_iff hw rfl (by decide) ⟨cstr "f", rfl⟩ (by decide)
    (by decide) hcached hperf).mpr ?_⟩
  unfold WriteSpares
  rw [if_neg (by decide), if_neg (by decide), if_neg (by decide)]
  decide

/-- A write that gets no descriptor for its temporary file removes the copy. -/
theorem write_without_descriptor_removes_copy :
    ∃ (w w' : World (Bool)) (x : Result), w.Mounted sample ∧
      w.cached sample false sampleFile = some [1] ∧
      w.perform sample (faultyWrite [.fail 24]) = some (some x, w') ∧
      ¬ w.WriteAtomic sample w' false sampleFile [1] [7, 8] 0 (some x) := by
  obtain ⟨w, w', x, hw, hcached, hperf, hret, hgone⟩ := exists_faulty [.fail 24] (-2) none
    (by decide +kernel)
  refine ⟨w, w', x, hw, hcached, hperf, ?_⟩
  rintro ⟨x', hx, hneg, -⟩
  obtain rfl := Option.some.inj hx
  have hsame := (hneg (by omega)).1
  rw [hgone] at hsame
  cases hsame

end World

end Afs
