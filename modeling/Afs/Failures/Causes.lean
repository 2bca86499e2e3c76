import Afs.Consistency.Catalog
import Afs.Failures.Sentinels
import Afs.Isolation.Entries
import Afs.Ops.Pending

/-!
# Why a name at the server stands for something else

Clients that open, read, look and close do not change the server, however their requests fare and whatever
fails. A name stands for something else only after a client asked for it: by an operation that edits names,
or by the release of a file whose entry in the table a write of the same client has flagged.
-/

namespace Afs

open Posix Interaction Transition

section Requests

variable {root_path x : Path} {N : Path → Prop} {r : Request}

/-- The request may change what one of these names stands for. -/
def Request.Edits (root_path : Path) (N : Path → Prop) (r : Request) : Prop :=
  ¬ r.Looks ∧ N (getServerPath r.path root_path)

/-- A request for another name leaves what the name stands for. -/
theorem Request.effect_item {now : Timespec} {d : Bytes} {C D : Catalog}
    (hr : ¬ r.Edits root_path (· = x)) (h : r.effect root_path now d C = .ok D) : D.item x = C.item x := by
  by_cases hl : r.Looks
  · rw [Request.effect_looks h hl]
  · have hx : x ≠ getServerPath r.path root_path := fun he => hr ⟨hl, he.symm⟩
    cases r with
    | create path => exact Catalog.item_opened_of_ne hx h
    | store s =>
        obtain ⟨E, ho, rfl⟩ := map_eq_ok.mp h
        exact (Catalog.item_fill_of_ne hx d).trans (Catalog.item_opened_of_ne hx ho)
    | unlink path => exact Catalog.item_unlink_of_ne hx h
    | chmod path mode => exact Catalog.item_chmod_of_ne hx h
    | mkdir path mode => exact Catalog.item_mkdir_of_ne hx h
    | rmdir path => exact Catalog.item_rmdir_of_ne hx h
    | getattr path | fetch path | ls path => exact absurd trivial hl

/-- A directory is stamped at most. -/
theorem Request.effect_dirs {now : Timespec} {d : Bytes} {C D : Catalog}
    (hr : ¬ r.Edits root_path fun y => y = x ∨ trimmed y = x) (h : r.effect root_path now d C = .ok D) :
    (C.dirs x).Restamped (D.dirs x) := by
  by_cases hl : r.Looks
  · rw [Request.effect_looks h hl]
    exact .refl _
  · have hx : x ≠ getServerPath r.path root_path := fun he => hr ⟨hl, Or.inl he.symm⟩
    have hx' : x ≠ trimmed (getServerPath r.path root_path) := fun he => hr ⟨hl, Or.inr he.symm⟩
    cases r with
    | create path => exact Catalog.restamped_opened h
    | store s =>
        obtain ⟨E, ho, rfl⟩ := map_eq_ok.mp h
        rw [Catalog.dirs_fill]
        exact Catalog.restamped_opened ho
    | unlink path => exact Catalog.restamped_unlink h
    | chmod path mode => exact Catalog.restamped_chmod hx hx' h
    | mkdir path mode => exact Catalog.restamped_mkdir hx h
    | rmdir path => exact Catalog.restamped_rmdir h
    | getattr path | fetch path | ls path => exact absurd trivial hl

/-- Handlers keep what their requests keep when they are carried out. -/
theorem Request.keeps_of_effect {I : Catalog → Prop}
    (h : ∀ {now d C D}, I C → r.effect root_path now d C = .ok D → I D) :
    r.Keeps root_path fun s => I s.catalog := by
  intro junk v hv
  obtain ⟨m, t, hrun, hout⟩ := @Server.handle_outcome v junk root_path r
  rw [hrun]
  rcases hout with ⟨hsame, -⟩ | ⟨-, d, -, heff⟩
  · change I t.fs.catalog
    rw [hsame]
    exact hv
  · exact h hv heff

end Requests

/-- The operations that ask the server to edit a name. -/
def Op.edits : Op → Bool
  | .create | .chmod _ | .unlink | .mkdir _ | .rmdir => true
  | .openF | .read .. | .write .. | .release _ | .getattr | .fsync _ | .truncate _ | .chown .. | .utimens ..
  | .readdir => false

/-- No other operation edits a name, but for a release. -/
theorem Op.Requests.edits {op : Op} {p root_path : Path} {N : Path → Prop} {r : Request}
    (hr : op.Requests p r) (h : r.Edits root_path N) :
    N (getServerPath p root_path) ∧ (op.edits = true ∨ ∃ k, op = .release k) := by
  obtain ⟨hl, hx⟩ := h
  cases op with
  | create | chmod mode | unlink | mkdir mode | rmdir =>
      obtain rfl := hr
      exact ⟨hx, Or.inl rfl⟩
  | release k =>
      obtain ⟨s, rfl, rfl⟩ := hr
      exact ⟨hx, Or.inr ⟨k, rfl⟩⟩
  | openF => rcases hr with rfl | rfl <;> exact absurd trivial hl
  | getattr | readdir =>
      obtain rfl := hr
      exact absurd trivial hl
  | read | write | fsync | truncate | chown | utimens => exact hr.elim

namespace World

variable {ι : Type} [DecidableEq ι] (P : Params ι)

/-- Client `i` wrote to a file that has this key in the table. -/
def Wrote (es : List (Event ι)) (i : ι) (key : Int64) : Prop :=
  ∃ c, .call c ∈ es ∧ c.client = i ∧ hashKey c.path = key ∧ ∃ k b o, c.op = .write k b o ∧ b ≠ []

/-- A client asked for a change of one of the names. -/
def Asked (es : List (Event ι)) (N : Path → Prop) : Prop :=
  ∃ es₁ c es₂, es = es₁ ++ .call c :: es₂ ∧ N (getServerPath c.path P.root_path) ∧
    (c.op.edits = true ∨ (∃ k, c.op = .release k) ∧ Wrote es₁ c.client (hashKey c.path))

variable {P} {w w' w₀ : World ι} {es : List (Event ι)} {e : Event ι} {i : ι} {x : Path}
  {N : Path → Prop} {I : Catalog → Prop}

omit [DecidableEq ι] in
theorem Asked.snoc (h : Asked P es N) (e : Event ι) : Asked P (es ++ [e]) N := by
  obtain ⟨es₁, c, es₂, rfl, hc⟩ := h
  exact ⟨es₁, c, es₂ ++ [e], by simp, hc⟩

/-- What a write records, it records for its own file and for some bytes. -/
private theorem records_wrote {r : Recorded} (hr : r ∈ w.records P i e)
    (hop : ∃ k b o, r.op = .write k b o) : Wrote (es ++ [e]) i r.node.key := by
  obtain ⟨k, b, o, hop⟩ := hop
  cases e with
  | call c =>
      simp only [records] at hr
      split at hr
      · next hi =>
        cases hfh : w.handle c with
        | none =>
            rw [hfh] at hr
            cases hr
        | some fh =>
            rw [hfh] at hr
            obtain ⟨n, hn, rfl⟩ := List.mem_map.mp hr
            refine ⟨c, by simp, hi, ?_, k, b, o, hop, ?_⟩
            · refine (Prog.Meets.run_logged (T := fun n => n.key = hashKey c.path)
                ((c.op.prog_records c.junk c.path (P.cache_path i) fh).meets.mono ?_) ?_ n hn).symm
              · intro d s hd n hn
                cases d with
                | put key value =>
                    obtain rfl := Option.some.inj hn
                    exact hd
                | _ => cases hn
              · exact fun t ht => absurd ht List.not_mem_nil
            · rintro rfl
              simp only at hop
              rw [hop] at hn
              exact absurd hn List.not_mem_nil
      · cases hr
  | start | late => cases hr

/-- Every client has a record of what it put into its table, and the flags in it are from its writes. -/
private def Remembers (P : Params ι) (es : List (Event ι)) (w : World ι) : Prop :=
  ∀ i, ∃ l, Chronicle P i w l ∧ ∀ r ∈ l, (∃ k b o, r.op = .write k b o) → Wrote es i r.node.key

private theorem Remembers.step (h : Remembers P es w) (he : ∀ i, w.KeepsDatabase P i e)
    (hs : w.step P e = some w') : Remembers P (es ++ [e]) w' := by
  intro i
  obtain ⟨l, hl, hold⟩ := h i
  refine ⟨_, hl.step (he i) hs, fun r hr hop => ?_⟩
  rcases List.mem_append.mp hr with hr | hr
  · obtain ⟨c, hc, hrest⟩ := hold r hr hop
    exact ⟨c, List.mem_append_left _ hc, hrest⟩
  · exact records_wrote hr hop

omit [DecidableEq ι] in
/-- A flagged entry is one of a file that the client wrote to. -/
private theorem Remembers.wrote (h : Remembers P es w) {p : Path} (hflag : w.recorded i p = modifiedFlag) :
    Wrote es i (hashKey p) := by
  obtain ⟨l, hl, hold⟩ := h i
  obtain ⟨r, k, b, o, hlast, hop⟩ := (hl.apart.flagged p).mp hflag
  obtain ⟨hmem, hkey⟩ := List.mem_filter.mp (List.mem_of_getLast? hlast)
  rw [← of_decide_eq_true hkey]
  exact hold r hmem ⟨k, b, o, hop⟩

/-- One step of the system, as long as nobody asks for a change of the names. -/
private theorem step_kept
    (hkeep : ∀ r : Request, ¬ r.Edits P.root_path N → r.Keeps P.root_path fun s => I s.catalog)
    (h : Remembers P es w) (hno : ¬ Asked P (es ++ [e]) N) (hs : w.step P e = some w')
    (hx : I w.server.fs.catalog ∧ ∀ r ∈ w.inflight, ¬ r.Edits P.root_path N) :
    I w'.server.fs.catalog ∧ ∀ r ∈ w'.inflight, ¬ r.Edits P.root_path N := by
  refine step_upholds (I := fun s => I s.catalog) (R := fun r => ¬ r.Edits P.root_path N) hkeep
    (fun s now hi => hi) ?_ hs hx
  rintro c fh rfl - hstate
  refine Op.run_upholds ⟨P.root_path, c.junk⟩ hkeep (fun r hr hflag hedits => ?_) hstate
  obtain ⟨hpath, hop⟩ := hr.edits hedits
  refine hno ⟨es, c, [], rfl, hpath, hop.imp_right ?_⟩
  rintro ⟨k, hk⟩
  exact ⟨⟨k, hk⟩, h.wrote (hflag k hk)⟩

/-- What all requests but edits of some names keep is lost only after a client asked for such an edit. -/
private theorem kept_or_asked
    (hkeep : ∀ r : Request, ¬ r.Edits P.root_path N → r.Keeps P.root_path fun s => I s.catalog)
    (h0 : ∀ i, w₀.Fresh P i) (hnet : w₀.inflight = [])
    (hr : Run (World.step P) (fun w e => ∀ i, w.KeepsDatabase P i e) w₀ es w)
    (hI : I w₀.server.fs.catalog) : Asked P es N ∨ I w.server.fs.catalog := by
  have hinv := hr.invariant_past (fun es w => Remembers P es w ∧ (Asked P es N ∨
      I w.server.fs.catalog ∧ ∀ r ∈ w.inflight, ¬ r.Edits P.root_path N))
    ⟨fun i => ⟨[], ⟨(h0 i).saved, (h0 i).1, fun r hr => absurd hr List.not_mem_nil⟩,
      fun r hr => absurd hr List.not_mem_nil⟩, Or.inr ⟨hI, fun r hr => by rw [hnet] at hr; cases hr⟩⟩
    fun es v e u _ hv he hs => ⟨hv.1.step he hs, ?_⟩
  · exact hinv.2.imp_right And.left
  · rcases hv.2 with hasked | hkept
    · exact Or.inl (hasked.snoc e)
    · by_cases hno : Asked P (es ++ [e]) N
      · exact Or.inl hno
      · exact Or.inr (step_kept hkeep hv.1 hno hs hkept)

/-- Whatever becomes of requests, handlers and clients, a name at the server stands for what it stood for,
and a directory has the attributes it had but for its times, unless a client asked for another thing. -/
theorem changes_were_asked (h0 : ∀ i, w₀.Fresh P i) (hnet : w₀.inflight = [])
    (hr : Run (World.step P) (fun w e => ∀ i, w.KeepsDatabase P i e) w₀ es w) (x : Path) :
    (¬ Fs.Kept x w₀.server.fs w.server.fs → Asked P es (· = x)) ∧
      (¬ (w₀.server.fs.dirs x).Restamped (w.server.fs.dirs x) →
        Asked P es fun y => y = x ∨ trimmed y = x) := by
  constructor
  · intro hx
    let I : Catalog → Prop := fun C => C.item x = w₀.server.fs.catalog.item x
    refine (kept_or_asked (I := I) (fun r hr' => ?_) h0 hnet hr rfl).resolve_right
      fun hitem => hx (.of_item hitem)
    exact Request.keeps_of_effect (I := I) fun hC heff => (r.effect_item hr' heff).trans hC
  · intro hx
    let I : Catalog → Prop := fun C => (w₀.server.fs.dirs x).Restamped (C.dirs x)
    refine (kept_or_asked (I := I) (fun r hr' => ?_) h0 hnet hr (.refl _)).resolve_right hx
    exact Request.keeps_of_effect (I := I) fun hC heff => hC.trans (r.effect_dirs hr' heff)

omit [DecidableEq ι] in
private theorem Fresh.congr (h : w.Fresh P i) (hc : w'.clients i = w.clients i) : w'.Fresh P i := by
  simpa only [Fresh, disk, hc] using h

/-- Two clients that have just been started. -/
private theorem fresh_sample {u v : World (Bool)} {now now' : Timespec}
    (hu : sampleBoot.step sample (.start false now .zero []) = some u)
    (hv : u.step sample (.start true now' .zero []) = some v) : ∀ i, v.Fresh sample i := by
  have hstays : ∀ {a b : World (Bool)} {j i : Bool} {t : Timespec},
      a.step sample (.start j t .zero []) = some b → i ≠ j → b.clients i = a.clients i := by
    intro a b j i t hs hne
    rcases client_step hs i with hsame | ⟨_, _, heq, -⟩ | ⟨_, _, _, heq, -⟩
    · exact hsame
    · cases heq
    · exact absurd (Event.start.inj heq).1 hne.symm
  intro i
  cases i with
  | false =>
      have hfalse : u.Fresh sample false := fresh_of_start (start_sampleBoot.sound.cache false) rfl hu
      exact hfalse.congr (hstays hv (by decide))
  | true =>
      have hdisk : u.disk true = sampleBoot.disk true := by
        rw [disk, hstays hu (by decide)]
      refine fresh_of_start ?_ ?_ hv
      · rw [hdisk]
        exact start_sampleBoot.sound.cache true
      · rw [hdisk]
        rfl

/-- One client reads the file, the other writes to it and gives up its store, which arrives later. -/
private def lateStore : List (Event (Bool)) :=
  [.call (sampleCall true 1 .openF []), .call (sampleCall false 2 .openF []),
    .call (sampleCall false 3 (.write 0 [8, 9] 0) []),
    .call (sampleCall false 4 (.release 0) (.late 110 :: List.replicate 5 (.lost 110))),
    .call (sampleCall true 5 (.release 0) []), .late 0 (sampleTime 6 0) { junk := .zero }]

/-- The file is then another, and a release asked for it. -/
theorem changes_were_asked_sample : ∃ (w₀ w : World (Bool)),
    Run (World.step sample) (fun w e => ∀ i, w.KeepsDatabase sample i e) w₀ lateStore w ∧
      (w₀.served sample sampleFile).map (·.bytes) = some [1] ∧
      (w.served sample sampleFile).map (·.bytes) = some [8, 9] ∧
      Asked sample lateStore (· = getServerPath sampleFile sample.root_path) := by
  have h : ((sampleBoot.step sample (.start false (sampleTime 0 0) .zero [])).bind fun u =>
      (u.step sample (.start true (sampleTime 0 0) .zero [])).bind fun w₀ =>
        (lateStore.foldlM (fun (w : World (Bool)) e =>
          if ∀ i, w.KeepsDatabase sample i e then w.step sample e else none) w₀).map fun w =>
            ((w₀.served sample sampleFile).map (·.bytes), (w.served sample sampleFile).map (·.bytes),
              w₀.inflight.isEmpty)) = some (some [1], some [8, 9], true) := by
    decide +kernel
  obtain ⟨u, hu, h⟩ := Option.bind_eq_some_iff.mp h
  obtain ⟨w₀, hv, h⟩ := Option.bind_eq_some_iff.mp h
  obtain ⟨w, hfold, h⟩ := Option.map_eq_some_iff.mp h
  obtain ⟨hbefore, hafter, hnet⟩ := by simpa only [Prod.mk.injEq] using h
  have hr : Run (World.step sample) (fun w e => ∀ i, w.KeepsDatabase sample i e) w₀ lateStore w :=
    Run.of_foldlM hfold
  refine ⟨w₀, w, hr, hbefore, hafter,
    (changes_were_asked (fresh_sample hu hv) (List.isEmpty_iff.mp hnet) hr _).1 fun hkept => ?_⟩
  exact absurd (hafter.symm.trans (hkept.bytes.trans hbefore)) (by decide)

end World

end Afs
