import Afs.Consistency.Catalog
import Afs.Consistency.Unchanged

/-!
# A request sent more than once

The client repeats a request whose answer it has not seen, and the server may execute an attempt that was
given up at any later time. `afs_FETCH`, `afs_GETATTR` and `afs_STORE`, the requests that are repeated, do
the same when they are executed again, so that their attempts together act once or not at all.
-/

namespace Posix

/-- The contents of what a name stands for: a directory has none. -/
def Item.bytes : Item → Option Bytes
  | .file _ f => some f.bytes
  | .dir => none

namespace Catalog

/-- What every name holds: nothing, a directory, or bytes. -/
def held (C : Catalog) : Path → Option (Option Bytes) := fun p => (C.item p).map Item.bytes

variable {C : Catalog} {p : Path}

theorem isDir_eq_held (C : Catalog) (p : Path) : C.isDir p = decide (C.held p = some none) := by
  unfold isDir held
  cases C.item p with
  | none => rfl
  | some x => cases x <;> rfl

theorem held_put (x : Item) : (C.put p x).held = Function.update C.held p (some x.bytes) := by
  funext q
  by_cases hq : q = p
  · subst hq
    simp only [held, put, Function.update_self, Option.map_some]
  · simp only [held, put, Function.update_of_ne hq]

theorem put_self {x : Item} (h : C.item p = some x) : C.put p x = C := by
  simp only [put, ← h, Function.update_eq_self]

theorem held_link (now : Timespec) (f : File) :
    (C.link now p f).held = Function.update C.held p (some (some f.bytes)) := by
  funext q
  by_cases hq : q = p
  · subst hq
    simp only [held, link, Function.update_self, Option.map_some, Item.bytes]
  · simp only [held, link, Function.update_of_ne hq]

/-- A file truncated and filled. -/
theorem fill_put {now : Timespec} {i : Nat} {f : File} (b : Bytes) :
    (C.put p (.file i (f.stamped now []))).fill now p b = C.put p (.file i (f.stamped now b)) := by
  unfold fill
  simp only [put, Function.update_self]
  split
  · next hb => rw [hb]
  · simp only [Function.update_idem, File.stamped]

/-- A new file filled. -/
theorem fill_link {now : Timespec} {mode : Nat} (b : Bytes) :
    (C.link now p (.new now mode)).fill now p b = C.link now p ((File.new now mode).stamped now b) := by
  unfold fill
  simp only [link, Function.update_self]
  split
  · next hb =>
    subst hb
    rfl
  · simp only [put, Function.update_idem]

end Catalog

end Posix

namespace Afs

open Posix Interaction

/-- The requests that a client repeats. -/
def Request.Repeated : Request → Prop
  | .store _ | .fetch _ | .getattr _ => True
  | .create _ | .unlink _ | .chmod .. | .mkdir .. | .rmdir _ | .ls _ => False

/-- What such a request makes of the contents, at whatever time it is executed. -/
def Request.rewrite (root_path : Path) (B : Path → Option (Option Bytes)) :
    Request → Path → Option (Option Bytes)
  | .store r =>
    match B (getServerPath r.path root_path) with
    | some none => B
    | some (some _) => Function.update B (getServerPath r.path root_path) (some (some r.buf))
    | none =>
      if B (parent (getServerPath r.path root_path)) = some none then
        Function.update B (getServerPath r.path root_path) (some (some r.buf))
      else B
  | _ => B

section Again

variable {root_path : Path} {order : List Path → List Path} {now : Timespec} {C D : Catalog} {r : Request}

/-- A store of a file that is there, of a new one, and one that is refused. -/
private theorem effect_store (root_path : Path) (now : Timespec) (C : Catalog) (s : StoreReq) :
    let p := getServerPath s.path root_path
    (∃ i f, C.item p = some (.file i f) ∧ (Request.store s).effect root_path now s.buf C =
        .ok (C.put p (.file i (File.stamped f now s.buf)))) ∨
      (C.item p = none ∧ C.isDir (parent p) = true ∧ (Request.store s).effect root_path now s.buf C =
        .ok (C.link now p ((File.new now S_IRWXUG).stamped now s.buf))) ∨
      ∃ e, (C.isDir p = true ∨ C.item p = none ∧ C.isDir (parent p) = false) ∧
        (Request.store s).effect root_path now s.buf C = .error e := by
  intro p
  cases h : C.item p with
  | some x =>
      cases x with
      | file i f =>
          refine Or.inl ⟨i, f, rfl, ?_⟩
          simp only [Request.effect, Catalog.opened, show getServerPath s.path root_path = p from rfl, h,
            if_true]
          exact congrArg Except.ok (Catalog.fill_put s.buf)
      | dir =>
          refine Or.inr (Or.inr ⟨EISDIR, Or.inl (by simp only [Catalog.isDir, h]), ?_⟩)
          simp only [Request.effect, Catalog.opened, show getServerPath s.path root_path = p from rfl, h]
          rfl
  | none =>
      cases hd : C.isDir (parent p) with
      | true =>
          refine Or.inr (Or.inl ⟨rfl, rfl, ?_⟩)
          simp only [Request.effect, Catalog.opened, show getServerPath s.path root_path = p from rfl, h, hd,
            if_true]
          exact congrArg Except.ok (Catalog.fill_link s.buf)
      | false =>
          refine Or.inr (Or.inr ⟨C.absent p, Or.inr ⟨rfl, rfl⟩, ?_⟩)
          simp only [Request.effect, Catalog.opened, show getServerPath s.path root_path = p from rfl, h, hd,
            if_true, Bool.false_eq_true, if_false]
          rfl

/-- A request of this kind that was carried out is carried out again without effect. -/
theorem Request.effect_again (hr : r.Repeated) (h : r.effect root_path now r.content C = .ok D) :
    r.effect root_path now r.content D = .ok D := by
  cases r with
  | fetch path =>
      obtain rfl := Request.effect_looks h trivial
      exact h
  | getattr path =>
      obtain rfl := Request.effect_looks h trivial
      exact h
  | store s =>
      have hthere : ∃ i f, D.item (getServerPath s.path root_path) =
          some (.file i (File.stamped f now s.buf)) := by
        rcases effect_store root_path now C s with ⟨i, f, -, he⟩ | ⟨-, -, he⟩ | ⟨e, -, he⟩
        · obtain rfl := Except.ok.inj (he.symm.trans h)
          exact ⟨i, f, Function.update_self ..⟩
        · obtain rfl := Except.ok.inj (he.symm.trans h)
          exact ⟨_, _, Function.update_self ..⟩
        · cases he.symm.trans h
      obtain ⟨i, f, hi⟩ := hthere
      rcases effect_store root_path now D s with ⟨j, g, hj, he⟩ | ⟨hnone, -, -⟩ | ⟨e, hno, -⟩
      · obtain ⟨rfl, rfl⟩ : i = j ∧ File.stamped f now s.buf = g := by
          simpa using hi.symm.trans hj
        exact he.trans (congrArg Except.ok (Catalog.put_self hi))
      · cases hi.symm.trans hnone
      · simp [Catalog.isDir, hi] at hno
  | _ => exact hr.elim

/-- The catalog gives the same answer to the request once more, and stays. -/
theorem Request.answer_again (hr : r.Repeated) :
    r.answer root_path order now (r.answer root_path order now C).2 = r.answer root_path order now C := by
  cases h : r.effect root_path now r.content C with
  | error e => rw [Request.answer_of_error h, Request.answer_of_error h]
  | ok D => rw [Request.answer_of_ok h, Request.answer_of_ok (Request.effect_again hr h)]

/-- The answer to such a request lists no entries. -/
theorem Request.answer_order (hr : r.Repeated) (order order' : List Path → List Path) :
    r.answer root_path order now C = r.answer root_path order' now C := by
  cases r with
  | store s | fetch path | getattr path => rfl
  | _ => exact hr.elim

/-- What an answer makes of the contents. -/
theorem Request.held_answer (hr : r.Repeated) :
    (r.answer root_path order now C).2.held = r.rewrite root_path C.held := by
  cases r with
  | fetch path =>
      cases h : (Request.fetch path).effect root_path now [] C with
      | error e =>
          rw [Request.answer_of_error h]
          rfl
      | ok D =>
          rw [Request.answer_of_ok h, Request.effect_looks h trivial]
          rfl
  | getattr path =>
      cases h : (Request.getattr path).effect root_path now [] C with
      | error e =>
          rw [Request.answer_of_error h]
          rfl
      | ok D =>
          rw [Request.answer_of_ok h, Request.effect_looks h trivial]
          rfl
  | store s =>
      rcases effect_store root_path now C s with ⟨i, f, hi, he⟩ | ⟨hi, hd, he⟩ | ⟨e, hno, he⟩
      · rw [Request.answer_of_ok he, Catalog.held_put]
        simp only [Request.rewrite, Catalog.held, hi, Option.map_some, Item.bytes, File.stamped]
      · rw [Request.answer_of_ok he, Catalog.held_link]
        rw [Catalog.isDir_eq_held, decide_eq_true_eq] at hd
        have hnone : C.held (getServerPath s.path root_path) = none := congrArg (Option.map _) hi
        simp only [Request.rewrite, hnone, hd, if_true, File.stamped]
      · rw [Request.answer_of_error he]
        rcases hno with hdir | ⟨hi, hd⟩
        · rw [Catalog.isDir_eq_held, decide_eq_true_eq] at hdir
          simp only [Request.rewrite, hdir]
        · rw [Catalog.isDir_eq_held, decide_eq_false_iff_not] at hd
          have hnone : C.held (getServerPath s.path root_path) = none := congrArg (Option.map _) hi
          simp only [Request.rewrite, hnone, hd, if_false]
  | _ => exact hr.elim

/-- The contents stay when the request is executed again, even at another time. -/
theorem Request.rewrite_again (r : Request) (B : Path → Option (Option Bytes)) :
    r.rewrite root_path (r.rewrite root_path B) = r.rewrite root_path B := by
  cases r with
  | store s =>
      have hdone : ∀ B' : Path → Option (Option Bytes),
          B' (getServerPath s.path root_path) = some (some s.buf) →
            (Request.store s).rewrite root_path B' = B' := by
        intro B' hB
        simp only [Request.rewrite, hB]
        rw [← hB, Function.update_eq_self]
      cases h : B (getServerPath s.path root_path) with
      | some x =>
          cases x with
          | some b =>
              have hw : (Request.store s).rewrite root_path B =
                  Function.update B (getServerPath s.path root_path) (some (some s.buf)) := by
                simp only [Request.rewrite, h]
              rw [hw]
              exact hdone _ (Function.update_self ..)
          | none =>
              have hw : (Request.store s).rewrite root_path B = B := by simp only [Request.rewrite, h]
              rw [hw, hw]
      | none =>
          by_cases hdir : B (parent (getServerPath s.path root_path)) = some none
          · have hw : (Request.store s).rewrite root_path B =
                Function.update B (getServerPath s.path root_path) (some (some s.buf)) := by
              simp only [Request.rewrite, h, hdir, if_true]
            rw [hw]
            exact hdone _ (Function.update_self ..)
          · have hw : (Request.store s).rewrite root_path B = B := by
              simp only [Request.rewrite, h, hdir, if_false]
            rw [hw, hw]
  | _ => rfl

end Again

namespace Env

variable {env : Env} {r : Request} {s t : St} {v : Proc} {h : Handling}

/-- A handler without faults. -/
theorem serve_answer (env : Env) (hf : h.faults = []) (hrep : r.Repeated) (hr : r.Tells) : ∃ m w,
    env.serve r h v = (some m, w) ∧
      (m, w.fs.catalog) = r.answer env.root_path env.junk.order v.fs.clock v.fs.catalog ∧
      w.fs.clock = v.fs.clock := by
  obtain ⟨m, w, hrun, hanswer⟩ :=
    @Server.handle_answer { v with faults := h.faults } h.junk env.root_path r hf hr
  refine ⟨m, { w with faults := [] }, by simp only [serve, hrun],
    hanswer.trans (Request.answer_order hrep _ _), ?_⟩
  have hclock := (Prog.Uses.any (Server.handle h.junk env.root_path r)).invariant
    (m := ProcCmd.exec) (I := fun u : Proc => u.fs.clock = v.fs.clock)
    (fun c u _ hu => by
      cases c with
      | sys c => exact (c.exec_clock u).trans hu
      | errno => exact hu) (s := { v with faults := h.faults }) rfl
  rw [hrun] at hclock
  exact hclock

/-- What the attempts of a request leave: the server is as before or as after one execution, and some
attempts may be left over in the network. -/
structure Between (env : Env) (r : Request) (s t : St) : Prop where
  quiet : t.NetFaultless
  clock : t.server.fs.clock = s.server.fs.clock
  names : t.server.fs.catalog = s.server.fs.catalog ∨
    t.server.fs.catalog = (r.answer env.root_path env.junk.order s.server.fs.clock s.server.fs.catalog).2
  inflight : ∃ n, t.inflight = List.replicate n r ++ s.inflight

/-- The answer is the same before and after an execution. -/
private theorem Between.answer (hrep : r.Repeated) (hb : Between env r s t) :
    r.answer env.root_path env.junk.order t.server.fs.clock t.server.fs.catalog =
      r.answer env.root_path env.junk.order s.server.fs.clock s.server.fs.catalog := by
  rw [hb.clock]
  rcases hb.names with h | h
  · rw [h]
  · rw [h]
    exact Request.answer_again hrep

/-- One more attempt. -/
theorem Between.attempt (hrep : r.Repeated) (hr : r.Tells) (hb : Between env r s t) :
    Between env r s (env.attempt r t).2 ∧ ∀ m, (env.attempt r t).1 = some m →
      (env.attempt r t).2.server.fs.catalog =
          (r.answer env.root_path env.junk.order s.server.fs.clock s.server.fs.catalog).2 ∧
        m = (r.answer env.root_path env.junk.order s.server.fs.clock s.server.fs.catalog).1.reply := by
  have hsame := hb.answer hrep
  have hserve : ∀ x : Handling, x.faults = [] → ∃ m w, env.serve r x t.server = (some m, w) ∧
      (m, w.fs.catalog) = r.answer env.root_path env.junk.order s.server.fs.clock s.server.fs.catalog ∧
      w.fs.clock = s.server.fs.clock := by
    intro x hx
    obtain ⟨m, w, hrun, hanswer, hclock⟩ := serve_answer (v := t.server) env hx hrep hr
    exact ⟨m, w, hrun, hanswer.trans hsame, hclock.trans hb.clock⟩
  have hnet : ∀ d ∈ (env.attempt r t).2.net, d.Faultless := fun d hd =>
    hb.quiet d (List.mem_of_mem_tail (by rwa [attempt_net] at hd))
  have hran : ∀ (x : Handling) (net : List Delivery) (c : ClientProc), x.faults = [] →
      (∀ d ∈ net, d.Faultless) →
      Between env r s { t with client := c, server := (env.serve r x t.server).2, net := net } ∧
        ∀ m, ((env.serve r x t.server).1.bind fun m => if m.ok then some m.reply else none) = some m →
          (env.serve r x t.server).2.fs.catalog =
              (r.answer env.root_path env.junk.order s.server.fs.clock s.server.fs.catalog).2 ∧
            m = (r.answer env.root_path env.junk.order s.server.fs.clock s.server.fs.catalog).1.reply := by
    intro x net c hx hq
    obtain ⟨a, w, hrun, hanswer, hclock⟩ := hserve x hx
    rw [hrun]
    refine ⟨⟨hq, hclock, Or.inr (congrArg Prod.snd hanswer), hb.inflight⟩, fun m hm => ?_⟩
    obtain ⟨a', ha', hok⟩ := Option.bind_eq_some_iff.mp hm
    obtain rfl := Option.some.inj ha'
    split at hok
    · rw [← Option.some.inj hok, ← hanswer]
      exact ⟨rfl, rfl⟩
    · cases hok
  unfold Env.attempt at hnet ⊢
  split
  · exact hran _ _ t.client rfl (fun d hd => absurd hd List.not_mem_nil)
  · next x net h =>
    rw [h] at hnet
    exact hran x net t.client (hb.quiet _ (by rw [h]; exact List.mem_cons_self) _ rfl) hnet
  · next x e net h =>
    rw [h] at hnet
    exact ⟨(hran x net _ (hb.quiet _ (by rw [h]; exact List.mem_cons_self) _ rfl) hnet).1,
      fun m hm => absurd hm (by simp)⟩
  · next e net h =>
    rw [h] at hnet
    obtain ⟨n, hn⟩ := hb.inflight
    refine ⟨⟨hnet, hb.clock, hb.names, n + 1, ?_⟩, fun m hm => absurd hm (by simp)⟩
    rw [List.replicate_succ, List.cons_append, ← hn]
  · next e net h =>
    rw [h] at hnet
    exact ⟨⟨hnet, hb.clock, hb.names, hb.inflight⟩, fun m hm => absurd hm (by simp)⟩

/-- All attempts of a loop. -/
theorem Between.retryLoop (n : Nat) (hrep : r.Repeated) (hr : r.Tells) (hb : Between env r s t) :
    Between env r s (env.retryLoop r n t).2 ∧ ∀ m, (env.retryLoop r n t).1 = some m →
      (env.retryLoop r n t).2.server.fs.catalog =
          (r.answer env.root_path env.junk.order s.server.fs.clock s.server.fs.catalog).2 ∧
        m = (r.answer env.root_path env.junk.order s.server.fs.clock s.server.fs.catalog).1.reply := by
  induction n generalizing t with
  | zero => exact ⟨hb, fun m hm => absurd hm.symm (Option.some_ne_none m)⟩
  | succ n ih =>
      obtain ⟨hnext, hanswer⟩ := hb.attempt hrep hr
      simp only [Env.retryLoop]
      split
      · next m u h =>
        rw [h] at hnext hanswer
        exact ⟨⟨hnext.quiet, hnext.clock, hnext.names, hnext.inflight⟩,
          fun m' hm => hanswer m' hm⟩
      · next u h =>
        rw [h] at hnext
        split
        · exact ih ⟨hnext.quiet, hnext.clock, hnext.names, hnext.inflight⟩
        · exact ⟨⟨hnext.quiet, hnext.clock, hnext.names, hnext.inflight⟩,
            fun m hm => absurd hm.symm (Option.some_ne_none m)⟩

/-- The server executes copies of a request that was given up, at any times. -/
def lates (env : Env) (r : Request) (v : Proc) (l : List (Timespec × Handling)) : Proc :=
  l.foldl (fun v x => (env.serve r x.2 { v with fs := { v.fs with clock := x.1 } }).2) v

/-- Copies that are executed later leave contents that the request leaves. -/
private theorem lates_held {l : List (Timespec × Handling)} (hrep : r.Repeated) (hr : r.Tells)
    (hq : ∀ x ∈ l, x.2.faults = []) :
    (env.lates r v l).fs.catalog.held = v.fs.catalog.held ∨
      (env.lates r v l).fs.catalog.held = r.rewrite env.root_path v.fs.catalog.held := by
  induction l generalizing v with
  | nil => exact Or.inl rfl
  | cons x l ih =>
      obtain ⟨m, w, hrun, hanswer, -⟩ := serve_answer (v := { v with fs := { v.fs with clock := x.1 } }) env
        (hq x List.mem_cons_self) hrep hr
      have hw : w.fs.catalog = (r.answer env.root_path env.junk.order x.1 v.fs.catalog).2 :=
        congrArg Prod.snd hanswer
      have hheld : w.fs.catalog.held = r.rewrite env.root_path v.fs.catalog.held := by
        rw [hw, Request.held_answer hrep]
      have hrest := ih (v := w) fun y hy => hq y (List.mem_cons_of_mem _ hy)
      rw [hheld, Request.rewrite_again, or_self] at hrest
      have hstep : env.lates r v (x :: l) = env.lates r w l := by
        simp only [lates, List.foldl_cons, hrun]
      rw [hstep]
      exact Or.inr hrest

/-- A request that is repeated acts at most once, however many of its attempts the server executes in the
loop or later: a reply that arrives is the answer to one execution, which has then taken place; and the
contents of all names are as before, or as one execution leaves them. -/
theorem repeated_acts_once (hrep : r.Repeated) (hr : r.Tells) (hq : s.NetFaultless) :
    let out := env.exec (.retried r) s
    let a := r.answer env.root_path env.junk.order s.server.fs.clock s.server.fs.catalog
    (out.2.server.fs.catalog = s.server.fs.catalog ∨ out.2.server.fs.catalog = a.2) ∧
      (∀ m, out.1 = some m → m = a.1.reply ∧ out.2.server.fs.catalog = a.2) ∧
      (∃ n, out.2.inflight = List.replicate n r ++ s.inflight) ∧
      ∀ l : List (Timespec × Handling), (∀ x ∈ l, x.2.faults = []) →
        ((env.lates r out.2.server l).fs.catalog.held = a.2.held ∨
          out.1 = none ∧ (env.lates r out.2.server l).fs.catalog.held = s.server.fs.catalog.held) := by
  intro out a
  have hstart : Between env r s s := ⟨hq, rfl, Or.inl rfl, 0, rfl⟩
  obtain ⟨hb, hreply⟩ := hstart.retryLoop ((6 - s.client.retries).toNat + 1) hrep hr
  refine ⟨hb.names, fun m hm => (hreply m hm).symm, hb.inflight, fun l hl => ?_⟩
  have hheld : a.2.held = r.rewrite env.root_path s.server.fs.catalog.held := Request.held_answer hrep
  have hlate := @lates_held env r out.2.server l hrep hr hl
  cases hout : out.1 with
  | some m =>
      have hdone : out.2.server.fs.catalog = a.2 := (hreply m hout).1
      rw [hdone, hheld, Request.rewrite_again, or_self] at hlate
      exact Or.inl (hlate.trans hheld.symm)
  | none =>
      rcases hb.names with hsame | hdone
      · change out.2.server.fs.catalog = _ at hsame
        rw [hsame, ← hheld] at hlate
        exact hlate.symm.imp_right fun h => ⟨rfl, h⟩
      · change out.2.server.fs.catalog = a.2 at hdone
        rw [hdone, hheld, Request.rewrite_again, or_self] at hlate
        exact Or.inl (hlate.trans hheld.symm)

/-- A store whose first reply is lost and whose second attempt is held up in the network. -/
theorem repeated_acts_once_sample : ∃ (s : St) (r : Request), r.Repeated ∧ r.Tells ∧
    s.NetFaultless ∧ s.net.length = 2 ∧
    ((Env.mk sample.root_path .zero).exec (.retried r) s).1.isSome = true ∧
    ∀ m, ((Env.mk sample.root_path .zero).exec (.retried r) s).1 = some m →
      m = (r.answer sample.root_path Junk.zero.order s.server.fs.clock s.server.fs.catalog).1.reply := by
  let s := sampleBoot.state false (sampleTime 5 0) [] [.replyLost { junk := .zero } 0, .late 0]
  let r : Request := .store ⟨sampleFile, 2, [5, 6]⟩
  have htells : r.Tells := by decide
  have hq : s.NetFaultless := by
    intro d hd h hh
    simp only [s, World.state, List.mem_cons, List.not_mem_nil, or_false] at hd
    rcases hd with rfl | rfl
    · exact Option.some.inj hh ▸ rfl
    · cases hh
  have hsome : ((Env.mk sample.root_path .zero).exec (.retried r) s).1.isSome = true := by decide +kernel
  exact ⟨s, r, trivial, htells, hq, rfl, hsome,
    fun m hm => ((@repeated_acts_once ⟨sample.root_path, .zero⟩ r s trivial htells hq).2.1 m hm).1⟩

end Env

end Afs
