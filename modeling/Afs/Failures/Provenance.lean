import Afs.Consistency.Catalog
import Afs.Ops.ClientOps
import Afs.Ops.Pending

/-!
# Where the server's bytes come from

Requests get lost, are repeated, and are executed long after the client gave them up, handlers fail half
way, and client processes end and start. The server's file is nevertheless empty, or what it was at first,
or a first part of the copy that some client released under this name: nothing else ever reaches it.
-/

namespace Afs

open Posix Interaction Transition

/-- A request that is carried out changes the bytes of a file only by emptying it, or by storing. -/
theorem Request.effect_bytes {root_path : Path} {now : Timespec} {d : Bytes} {C D : Catalog} {r : Request}
    {x : Path} {f : File} (h : r.effect root_path now d C = .ok D) (hf : D.look x = some f) :
    f.bytes = [] ∨ (∃ g, C.look x = some g ∧ g.bytes = f.bytes) ∨
      ∃ q, r = .store q ∧ x = getServerPath q.path root_path ∧ f.bytes = d := by
  have hsame : C.look x = some f → f.bytes = [] ∨ (∃ g, C.look x = some g ∧ g.bytes = f.bytes) ∨
      ∃ q, r = .store q ∧ x = getServerPath q.path root_path ∧ f.bytes = d :=
    fun hl => Or.inr (Or.inl ⟨f, hl, rfl⟩)
  cases r with
  | create path | fetch path =>
      rcases Catalog.look_opened h hf with hl | ⟨-, hb⟩
      · exact hsame hl
      · exact Or.inl hb
  | store q =>
      simp only [effect] at h
      cases ho : C.opened now (getServerPath q.path root_path) { creat := true, trunc := true } S_IRWXUG with
      | error e =>
          rw [ho] at h
          cases h
      | ok E =>
          rw [ho] at h
          obtain rfl := Except.ok.inj h
          rcases Catalog.look_fill hf with hl | ⟨hx, hb⟩
          · rcases Catalog.look_opened ho hl with hl' | ⟨-, hb⟩
            · exact hsame hl'
            · exact Or.inl hb
          · exact Or.inr (Or.inr ⟨q, rfl, hx, hb⟩)
  | getattr path | ls path =>
      obtain rfl := Request.effect_looks h trivial
      exact hsame hf
  | unlink path => exact hsame (Catalog.look_unlink h hf)
  | rmdir path => exact hsame (Catalog.look_rmdir h hf)
  | mkdir path mode => exact hsame (Catalog.look_mkdir h hf)
  | chmod path mode => exact Or.inr (Or.inl (Catalog.look_chmod h hf))

/-- Every file is empty or has a first part of bytes that its name may have. -/
def Sourced (S : Path → Bytes → Prop) (s : Fs) : Prop :=
  ∀ x f, s.look x = some f → f.bytes = [] ∨ ∃ b, S x b ∧ f.bytes <+: b

/-- A store carries a first part of such bytes, and tells its length. -/
def Request.Sourced (root_path : Path) (S : Path → Bytes → Prop) : Request → Prop
  | .store q =>
    q.size.toInt = q.buf.length ∧ ∃ b, S (getServerPath q.path root_path) b ∧ q.buf <+: b
  | _ => True

variable {S S' : Path → Bytes → Prop} {root_path : Path}

theorem Sourced.mono {s : Fs} (h : Sourced S s) (himp : ∀ x b, S x b → S' x b) : Sourced S' s := by
  intro x f hf
  rcases h x f hf with hnil | ⟨b, hb, hpre⟩
  · exact Or.inl hnil
  · exact Or.inr ⟨b, himp x b hb, hpre⟩

theorem Request.Sourced.mono {r : Request} (h : r.Sourced root_path S) (himp : ∀ x b, S x b → S' x b) :
    r.Sourced root_path S' := by
  cases r with
  | store q =>
      obtain ⟨hsize, b, hb, hpre⟩ := h
      exact ⟨hsize, b, himp _ _ hb, hpre⟩
  | _ => trivial

/-- The handler of such a request keeps the files so, whatever fails in it. -/
theorem Request.Sourced.keeps {r : Request} (hr : r.Sourced root_path S) :
    r.Keeps root_path (Afs.Sourced S) := by
  intro junk v hv x f hf
  obtain ⟨m, t, hrun, hout⟩ := @Server.handle_outcome v junk root_path r
  rw [hrun] at hf
  rw [← Fs.catalog_look] at hf
  rcases hout with ⟨hsame, -⟩ | ⟨-, d, hd, heff⟩
  · rw [hsame, Fs.catalog_look] at hf
    exact hv x f hf
  · rcases Request.effect_bytes heff hf with hnil | ⟨g, hg, hb⟩ | ⟨q, rfl, rfl, hb⟩
    · exact Or.inl hnil
    · rw [Fs.catalog_look] at hg
      rw [← hb]
      exact hv x g hg
    · obtain ⟨hsize, b, hb', hpre⟩ := hr
      have htells : (Request.store q).Tells := hsize
      rw [Request.payload_of_tells htells] at hd
      exact Or.inr ⟨b, hb', by rw [hb]; exact hd.trans hpre⟩

section Programs

variable {r : Request} {p dir : Path}

/-- A store of a whole buffer sends a first part of it. -/
theorem afsStore_sourced {buf : Bytes} (hb : S (getServerPath p root_path) buf) :
    (Client.afsStore p dir buf (Int32.ofInt buf.length)).Uses
      (Cmd.Sends (Request.Sourced root_path S)) := by
  by_cases hpos : 0 ≤ (Int32.ofInt buf.length).toInt
  · rw [afsStore_eq hpos]
    refine Prog.Uses.call ⟨?_, buf, hb, List.take_prefix _ _⟩ fun status => ?_
    · exact StoreReq.toInt_whole (length_sentBytes_lt buf)
    · cases status with
      | some reply => exact Prog.Uses.bind Client.record_sends fun _ => trivial
      | none => trivial
  · rw [afsStore_halts (Int.not_le.mp hpos)]
    trivial

/-- An operation other than a release stores nothing. -/
theorem Op.Requests.sourced {op : Op} (hop : ∀ k, op ≠ .release k) (hr : op.Requests p r) :
    r.Sourced root_path S := by
  cases op with
  | release k => exact absurd rfl (hop k)
  | openF => rcases hr with rfl | rfl <;> trivial
  | create | getattr | chmod mode | mkdir mode | rmdir | readdir | unlink =>
      obtain rfl := hr
      trivial
  | read | write | fsync | truncate | chown | utimens => exact hr.elim

end Programs

namespace World

variable {ι : Type} [DecidableEq ι] (P : Params ι) (w : World ι)

/-- A release that stores has a copy to store, and its own calls do not fail. -/
def Traceable : Event ι → Prop
  | .call c => ∀ k, c.op = .release k → w.recorded c.client c.path = modifiedFlag →
    c.faults = [] ∧ ∃ b, w.cached P c.client c.path = some b ∧ b.length < 2 ^ 63
  | _ => True

omit [DecidableEq ι] in
private theorem traceable_iff (c : Call ι) : w.Traceable P (.call c) ↔
    ((match c.op with | .release _ => true | _ => false) = true →
      w.recorded c.client c.path = modifiedFlag → c.faults.isEmpty = true ∧
        ((w.cached P c.client c.path).any fun b => decide (b.length < 2 ^ 63)) = true) := by
  simp only [Traceable, List.isEmpty_iff, Option.any_eq_true, decide_eq_true_eq]
  constructor
  · intro h hop
    split at hop
    · next k hk => exact h k hk
    · cases hop
  · intro h k hk
    exact h (by rw [hk])

instance : (e : Event ι) → Decidable (w.Traceable P e)
  | .call c => decidable_of_iff' _ (traceable_iff P w c)
  | .start .. => .isTrue trivial
  | .late .. => .isTrue trivial

/-- What the name stood for at first, and every copy that was released under it so far. -/
def Source (es : List (Event ι)) (x : Path) (b : Bytes) : Prop :=
  (∃ f, w.server.fs.look x = some f ∧ f.bytes = b) ∨
    ∃ es₁ c es₂ v k, es = es₁ ++ .call c :: es₂ ∧ Run (World.step P) (Traceable P) w es₁ v ∧
      c.op = .release k ∧ getServerPath c.path P.root_path = x ∧ v.cached P c.client c.path = some b

variable {P w} {w' v : World ι} {es : List (Event ι)} {e : Event ι}

theorem Source.snoc {x : Path} {b : Bytes} (h : w.Source P es x b) (e : Event ι) :
    w.Source P (es ++ [e]) x b := by
  rcases h with hfirst | ⟨es₁, c, es₂, v, k, rfl, hrest⟩
  · exact Or.inl hfirst
  · exact Or.inr ⟨es₁, c, es₂ ++ [e], v, k, by simp, hrest⟩

/-- One step: what a name may have grows by the copy that is released. -/
private theorem step_sourced (hr : Run (World.step P) (Traceable P) w es v) (ht : v.Traceable P e)
    (hs : v.step P e = some w')
    (h : Sourced (w.Source P es) v.server.fs ∧ ∀ r ∈ v.inflight, r.Sourced P.root_path (w.Source P es)) :
    Sourced (w.Source P (es ++ [e])) w'.server.fs ∧
      ∀ r ∈ w'.inflight, r.Sourced P.root_path (w.Source P (es ++ [e])) := by
  refine step_upholds (fun r hr' => hr'.keeps) (fun s now hsource => hsource) ?_ hs
    ⟨h.1.mono fun x b hb => hb.snoc e, fun r hr' => (h.2 r hr').mono fun x b hb => hb.snoc e⟩
  rintro c fh rfl hfh hstate
  by_cases hstore : ∃ k, c.op = .release k ∧ v.recorded c.client c.path = modifiedFlag
  · obtain ⟨k, hop, hflag⟩ := hstore
    obtain ⟨hfaults, b, hb, hlen⟩ := ht k hop hflag
    obtain ⟨f, hf, rfl⟩ := Option.map_eq_some_iff.mp hb
    have hsource : w.Source P (es ++ [.call c]) (getServerPath c.path P.root_path) f.bytes :=
      Or.inr ⟨es, c, [], v, k, rfl, hr, hop, rfl, hb⟩
    obtain ⟨rc, u, hrun, hlocal⟩ := afsRelease_sends ⟨P.root_path, c.junk⟩ c.junk fh
      (s := v.state c.client c.now c.faults c.net) hfaults hflag hf (by omega)
    have hu : u.Upholds (Sourced (w.Source P (es ++ [.call c])))
        (Request.Sourced P.root_path (w.Source P (es ++ [.call c]))) := by
      constructor
      · rw [hlocal.server]
        exact hstate.1
      · rw [hlocal.inflight]
        exact hstate.2
    simp only [hop, Op.prog, Prog.pure_eq]
    rw [Prog.run_bind_ret, hrun, Prog.pure_eq, Prog.run_bind_ret]
    exact Env.run_upholds ⟨P.root_path, c.junk⟩ (fun r hr' => hr'.keeps) (afsStore_sourced hsource) hu
  · refine Op.run_upholds ⟨P.root_path, c.junk⟩ (fun r hr' => hr'.keeps) (fun r hr' hflag => ?_) hstate
    exact Op.Requests.sourced (fun k hk => hstore ⟨k, hk, hflag k hk⟩) hr'

/-- Whatever becomes of requests and handlers, and whichever clients end and start, a server's file is
empty, or it has a first part of what it was, or of the copy that some client released under its name. -/
theorem served_bytes_were_released (hnet : w.inflight = [])
    (h : Run (World.step P) (Traceable P) w es w') {x : Path} {f : File}
    (hf : w'.server.fs.look x = some f) : f.bytes = [] ∨ ∃ b, w.Source P es x b ∧ f.bytes <+: b := by
  have hinv := h.invariant_past (fun es w' => Sourced (w.Source P es) w'.server.fs ∧
      ∀ r ∈ w'.inflight, r.Sourced P.root_path (w.Source P es))
    ⟨fun x f hf => Or.inr ⟨f.bytes, Or.inl ⟨f, hf, rfl⟩, List.prefix_rfl⟩, by
      rw [hnet]
      exact List.forall_mem_nil _⟩
    fun es v e u hr hinv ht hs => step_sourced hr ht hs hinv
  exact hinv.1 x f hf

/-- A store is given up, the same client stores again, and the first store is then executed with a write
that is cut short. -/
theorem served_bytes_were_released_sample : ∃ (es : List (Event (Bool))) (w' : World (Bool)) (f : File),
    Run (World.step sample) (Traceable sample) sampleBoot es w' ∧ w'.served sample sampleFile = some f ∧
      f.bytes = [8] ∧ (f.bytes = [] ∨
        ∃ b, sampleBoot.Source sample es (getServerPath sampleFile sample.root_path) b ∧ f.bytes <+: b) := by
  let es : List (Event (Bool)) := [.call (sampleCall false 1 .openF []),
    .call (sampleCall false 2 (.write 0 [8, 9] 0) []),
    .call (sampleCall false 3 (.release 0) [.lost 110, .late 110, .done { junk := .zero }]),
    .late 0 (sampleTime 4 0) { faults := [.ok, .short 1], junk := .zero }]
  have h : ((es.foldlM (fun (w : World (Bool)) e => if w.Traceable sample e then w.step sample e else none)
      sampleBoot).bind fun w => (w.served sample sampleFile).map (·.bytes)) = some [8] := by
    decide +kernel
  obtain ⟨w', hfold, hserved⟩ := Option.bind_eq_some_iff.mp h
  obtain ⟨f, hf, hb⟩ := Option.map_eq_some_iff.mp hserved
  have hrun := Run.of_foldlM hfold
  exact ⟨es, w', f, hrun, hf, hb, served_bytes_were_released rfl hrun hf⟩

end World

end Afs
