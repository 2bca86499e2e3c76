import Afs.Ops.Events
import Afs.Ops.Attempts
import Afs.Ops.Spares
import Afs.Ops.Script

/-!
# Stores that come back

A request that its client gave up stays in the network, and nothing in it tells the server that it
is old. What an acknowledged store left at the server stays there until a client stores or unlinks
the path again, or until the server executes such a leftover.
-/

namespace Afs

open Posix Interaction Transition

/-- A loop of attempts to store, whose handlers do not fail, ended with a reply without an error. -/
theorem Env.retryLoop_acknowledged {env : Env} {request : StoreReq} {n : Nat} {s t : St}
    {m : StoreRes} (hsize : request.size.toInt = request.buf.length)
    (hnet : ∀ d ∈ s.net, d.Faultless) (h : env.retryLoop (.store request) n s = (some m, t))
    (hm : m.error = 0) :
    t.server.fs.Has (getServerPath request.path env.root_path) request.buf := by
  have hstep : ∀ s : St, (∀ d ∈ s.net, d.Faultless) → ∀ c : ClientProc,
      ∀ d ∈ ({ (env.attempt (.store request) s).2 with client := c } : St).net, d.Faultless := by
    intro s hs c d hd
    rw [Env.attempt_net] at hd
    exact hs d (List.mem_of_mem_tail hd)
  obtain ⟨u, u', hu, hlast, hserver, -⟩ := Env.retryLoop_some hstep hnet h
  obtain ⟨x, v, a, hx, hserve, -, ha, hv⟩ := Env.attempt_some hlast
  have hfaults : x.faults = [] := by
    rcases hx with ⟨-, hf⟩ | ⟨net, hn⟩
    · exact hf
    · exact hu (.done x) (by rw [hn]; exact List.mem_cons_self) x rfl
  obtain ⟨a', v', hrun, -, hstored⟩ := Server.afsStore_acknowledged x.junk env.root_path request
    (s := { u.server with faults := x.faults }) hfaults hsize
  simp only [Env.serve, Server.handle, hrun, Prod.mk.injEq, Option.some.injEq] at hserve
  obtain ⟨rfl, rfl⟩ := hserve
  obtain ⟨f, hf, hb⟩ := hstored (by rw [ha]; exact hm)
  rw [hserver, hv, ← hb]
  exact Fs.has_of_look hf

namespace World

variable {ι : Type} [DecidableEq ι] {P : Params ι} {p : Path} {b : Bytes} {w w' : World ι}

/-- The attempts of the store that a release makes end with a reply without an error. -/
def Acknowledges (P : Params ι) (w : World ι) (c : Call ι) (request : StoreReq) : Prop :=
  ∃ (m : StoreRes) (t : St), Env.exec ⟨P.root_path, c.junk⟩ (.retried (.store request))
    (w.state c.client c.now c.faults c.net) = (some m, t) ∧ m.error = 0

/-- An event that neither stores nor unlinks the path: no client releases it with the modified flag
or unlinks it, and of the requests left in the network the server executes none that would, but
for copies of the given one. -/
def Settled (P : Params ι) (p : Path) (request : StoreReq) (w : World ι) : Event ι → Prop
  | .call c => c.op.Leaves P.root_path (getServerPath p P.root_path) c.path
      (w.recorded c.client c.path)
  | .start .. => True
  | .late k _ h => ∀ r, w.inflight[k]? = some r →
      r.Spares P.root_path (getServerPath p P.root_path) ∨ (r = .store request ∧ h.faults = [])

/-- A settled event keeps the stored bytes. -/
theorem step_has {e : Event ι} (hb : b.length < 2 ^ 31) (he : w.Settled P p (.whole p b) e)
    (h : w.step P e = some w') (hhas : w.server.fs.Has (getServerPath p P.root_path) b) :
    w'.server.fs.Has (getServerPath p P.root_path) b := by
  cases e with
  | call c =>
      simp only [step, perform, Option.map_eq_some_iff] at h
      obtain ⟨out, hperf, rfl⟩ := h
      split at hperf
      · obtain ⟨fh, -, rfl⟩ := Option.map_eq_some_iff.mp hperf
        simp only [server_finish]
        exact Op.run_has he hhas
      · cases hperf
  | start i now junk faults =>
      obtain rfl := Option.some.inj h
      rw [server_finish]
      exact Env.run_has (Prog.Uses.bind Client.main_sends fun _ => trivial) hhas
  | late k now x =>
      simp only [step] at h
      split at h
      · cases h
      · next r hr =>
        obtain rfl := Option.some.inj h
        rcases he r hr with hspares | ⟨rfl, hfaults⟩
        · have hat : (w.serverAt now).fs.Has (getServerPath p P.root_path) b := hhas
          exact Env.serve_has ⟨P.root_path, x.junk⟩ hspares hat x
        · obtain ⟨g, hg, -⟩ := hhas.look
          obtain ⟨a, v, hrun, -, -, f, hst, hbytes, -⟩ := Server.afsStore_yields x.junk P.root_path
            (.whole p b) (s := { w.serverAt now with faults := x.faults }) hfaults
            (StoreReq.toInt_whole hb) (Fs.isDir_of_look hg) fun hn => by
              rw [StoreReq.whole] at hn
              exact absurd (hg.symm.trans hn) (Option.some_ne_none g)
          have hlook : v.fs.look (getServerPath p P.root_path) = some f := by
            rw [hst.look]
            exact Function.update_self ..
          simp only [Env.serve, Server.handle, hrun]
          rw [← show f.bytes = b from hbytes]
          exact Fs.has_of_look hlook

/-- A release that finds the modified flag, returns, and got a reply without an error has stored what
it sent. -/
theorem perform_has {c : Call ι} {k : Nat} {r : Result} (hb : b.length < 2 ^ 63)
    (hop : c.op = .release k) (hpath : c.path = p) (hfaults : c.faults = [])
    (hnet : ∀ d ∈ c.net, d.Faultless) (hflag : w.recorded c.client p = modifiedFlag)
    (hcached : w.cached P c.client p = some b)
    (hack : w.Acknowledges P c (.whole p (sentBytes b.length b)))
    (h : w.perform P c = some (some r, w')) :
    w'.server.fs.Has (getServerPath p P.root_path) (sentBytes b.length b) := by
  subst hpath
  unfold perform at h
  split at h
  · obtain ⟨fh, -, hout⟩ := Option.map_eq_some_iff.mp h
    obtain ⟨hret, rfl⟩ := Prod.mk.inj hout
    rw [server_finish]
    rw [hop] at hret ⊢
    obtain ⟨f, hf, rfl⟩ := Option.map_eq_some_iff.mp hcached
    obtain ⟨rc, u, hrun, hlocal⟩ := afsRelease_sends ⟨P.root_path, c.junk⟩ c.junk fh
      (s := w.state c.client c.now c.faults c.net) hfaults hflag hf (by omega)
    have hpos : 0 ≤ (Int32.ofInt f.bytes.length).toInt := by
      by_contra hneg
      have hhalt : Client.afsStore c.path (P.cache_path c.client) f.bytes
          (Int32.ofInt f.bytes.length) = .halt := afsStore_halts (Int.not_le.mp hneg)
      simp only [Op.prog, Prog.run_bind, hrun, hhalt, Prog.run_halt] at hret
      cases hret
    refine Env.run_bind_has ?_ fun _ => trivial
    rw [hrun]
    refine Env.run_bind_has ?_ fun _ => trivial
    obtain ⟨m, t, hexec, hm⟩ := hack
    have halike : (w.state c.client c.now c.faults c.net).Alike u :=
      ⟨hlocal.server, hlocal.net, hlocal.inflight, hlocal.retries⟩
    obtain ⟨hres, hnext⟩ := Env.exec_retried_alike ⟨P.root_path, c.junk⟩
      (.store (.whole c.path (sentBytes f.bytes.length f.bytes))) halike
    rw [hexec] at hres hnext
    have hhas : t.server.fs.Has (getServerPath c.path P.root_path)
        (sentBytes f.bytes.length f.bytes) :=
      Env.retryLoop_acknowledged (StoreReq.toInt_whole (length_sentBytes_lt _)) hnet hexec hm
    rw [afsStore_eq hpos]
    refine Env.run_bind_has ?_ fun status => ?_
    · change (Env.exec _ _ _).2.server.fs.Has _ _
      rw [hnext.server]
      exact hhas
    · cases status with
      | some reply => exact Prog.Uses.bind Client.record_sends fun _ => trivial
      | none => exact trivial
  · cases h

/-- What an acknowledged release stored stays at the server in every run of settled events, whatever
fails in it and whatever was left in the network before. -/
theorem acknowledged_store_stays {c : Call ι} {k : Nat} {r : Result} {w₁ w₂ w₃ : World ι}
    {es : List (Event ι)} (hb : b.length < 2 ^ 63)
    (hop : c.op = .release k) (hpath : c.path = p) (hfaults : c.faults = [])
    (hnet : ∀ d ∈ c.net, d.Faultless) (hflag : w₁.recorded c.client p = modifiedFlag)
    (hcached : w₁.cached P c.client p = some b)
    (hack : w₁.Acknowledges P c (.whole p (sentBytes b.length b)))
    (hperf : w₁.perform P c = some (some r, w₂))
    (hr : Run (World.step P) (Settled P p (.whole p (sentBytes b.length b))) w₂ es w₃) :
    (w₃.served P p).map (·.bytes) = some (sentBytes b.length b) := by
  have hstored := perform_has hb hop hpath hfaults hnet hflag hcached hack hperf
  apply Fs.has_iff.mp
  exact hr.invariant (fun w => w.server.fs.Has (getServerPath p P.root_path) (sentBytes b.length b))
    hstored fun w e w' hw he hs => step_has (length_sentBytes_lt b) he hs hw

/-- Client `false` writes `[7]`, and none of the six attempts of its release is executed in time.
Then client `true` writes `[8]`. -/
def delayedStores : List (Event (Bool)) :=
  [.call (sampleCall false 1 .openF []), .call (sampleCall false 2 (.write 0 [7] 0) []),
    .call (sampleCall false 3 (.release 0) (List.replicate 6 (.late 110))),
    .call (sampleCall true 4 .openF []), .call (sampleCall true 5 (.write 0 [8] 0) [])]

/-- The release of client `true`, whose reply is lost once. -/
def laterStore : Call (Bool) := sampleCall true 6 (.release 0) [.replyLost { junk := .zero } 110]

/-- Its store succeeds at the second attempt, while the six of the other client are still in the
network. Then one of these is executed. -/
private theorem exists_laterStore :
    ∃ w₁ w₂ w₃ r, Run (World.step sample) (fun _ _ => True) sampleBoot delayedStores w₁ ∧
      w₁.recorded true sampleFile = modifiedFlag ∧ w₁.cached sample true sampleFile = some [8] ∧
      w₁.Acknowledges sample laterStore (.whole sampleFile [8]) ∧
      w₁.perform sample laterStore = some (some r, w₂) ∧
      (w₂.served sample sampleFile).map (·.bytes) = some [8] ∧
      w₂.step sample (.late 0 (sampleTime 9 0) { junk := .zero }) = some w₃ ∧
      (w₃.served sample sampleFile).map (·.bytes) = some [7] := by
  have h : ((delayedStores.foldlM (World.step sample) sampleBoot).bind fun w =>
      (w.perform sample laterStore).bind fun y => y.1.bind fun _ =>
        (y.2.step sample (.late 0 (sampleTime 9 0) { junk := .zero })).map fun w' =>
          (w.recorded true sampleFile,
            (Env.exec ⟨sample.root_path, .zero⟩ (.retried (.store (.whole sampleFile [8])))
              (w.state true laterStore.now [] laterStore.net)).1.map (·.error),
            [w.cached sample true sampleFile, (y.2.served sample sampleFile).map (·.bytes),
              (w'.served sample sampleFile).map (·.bytes)])) =
      some (modifiedFlag, some 0, [some [8], some [8], some [7]]) := by
    decide +kernel
  obtain ⟨w₁, hfold, h⟩ := Option.bind_eq_some_iff.mp h
  obtain ⟨⟨y, w₂⟩, hperf, h⟩ := Option.bind_eq_some_iff.mp h
  obtain ⟨r, rfl, h⟩ := Option.bind_eq_some_iff.mp h
  obtain ⟨w₃, hlate, h⟩ := Option.map_eq_some_iff.mp h
  simp only [Prod.mk.injEq, List.cons.injEq, and_true] at h
  obtain ⟨hflag, hack, hcached, hserved, hback⟩ := h
  obtain ⟨m, hm, herr⟩ := Option.map_eq_some_iff.mp hack
  exact ⟨w₁, w₂, w₃, r, Run.of_foldlM (by simpa only [if_true] using hfold), hflag, hcached,
    ⟨m, _, Prod.ext hm rfl, herr⟩, hperf, hserved, hlate, hback⟩

/-- A restart of the other client does not bring its bytes back. -/
theorem acknowledged_store_stays_restart :
    ∃ w₁ w₂ w₃, Run (World.step sample) (fun _ _ => True) sampleBoot delayedStores w₁ ∧
      Run (World.step sample) (Settled sample sampleFile (.whole sampleFile [8])) w₂
        [.start false (sampleTime 9 0) .zero []] w₃ ∧
      (∃ r, w₁.perform sample laterStore = some (some r, w₂)) ∧
      (w₃.served sample sampleFile).map (·.bytes) = some [8] := by
  obtain ⟨w₁, w₂, -, r, hr, hflag, hcached, hack, hperf, -⟩ := exists_laterStore
  have hstart : Run (World.step sample) (Settled sample sampleFile (.whole sampleFile [8])) w₂
      [.start false (sampleTime 9 0) .zero []] _ := Run.single trivial rfl
  refine ⟨w₁, w₂, _, hr, hstart, ⟨r, hperf⟩, ?_⟩
  refine acknowledged_store_stays (b := [8]) (by decide) rfl rfl rfl ?_ hflag hcached hack hperf
    hstart
  intro d hd x hx
  obtain rfl := List.mem_singleton.mp hd
  obtain rfl := Option.some.inj hx
  rfl

/-- An attempt that its client gave up long ago is executed after the acknowledged store of another
client, and its bytes are back. -/
theorem late_copy_resurfaces :
    ∃ w₁ w₂ w₃ r, Run (World.step sample) (fun _ _ => True) sampleBoot delayedStores w₁ ∧
      w₁.Acknowledges sample laterStore (.whole sampleFile [8]) ∧
      w₁.perform sample laterStore = some (some r, w₂) ∧
      (w₂.served sample sampleFile).map (·.bytes) = some [8] ∧
      w₂.step sample (.late 0 (sampleTime 9 0) { junk := .zero }) = some w₃ ∧
      (w₃.served sample sampleFile).map (·.bytes) = some [7] := by
  obtain ⟨w₁, w₂, w₃, r, hr, -, -, hack, hperf, hserved, hlate, hback⟩ := exists_laterStore
  exact ⟨w₁, w₂, w₃, r, hr, hack, hperf, hserved, hlate, hback⟩

end World

end Afs
