import Afs.Ops.Script

/-!
# What an open trusts

A record is the nanosecond part of a modification time, without the seconds, and an open compares
it with the nanosecond part of the server's time. `Watched` follows, besides the system, the whole
time that came with every client's record. An open is right about its copy exactly as far as the
nanosecond part tells the server's time from that one.
-/

namespace Afs

open Posix Interaction Transition

/-- The system with the modification time of `p` behind every client's record of it. -/
structure Watched (ι : Type) where
  world : World ι
  /-- The server's whole time when the client last fetched or stored the file. -/
  told : ι → Option Timespec

namespace View

variable {ι : Type} (v : View ι)

/-- Whether an operation writes a server time into the client's record: an open that fetches, or a
store. -/
def learns (i : ι) (op : Op) : Bool :=
  match op with
  | .openF => (v.copies i).stale
  | _ => v.stores i op

/-- The whole times after an operation that left the file with the time `t`. -/
def tell [DecidableEq ι] (told : ι → Option Timespec) (i : ι) (op : Op) (t : Option Timespec) :
    ι → Option Timespec :=
  if v.learns i op then Function.update told i t else told

/-- What every record stands for: a time of the file that is not later than its present one, and a
copy with the present time has the present bytes. -/
structure Dated (told : ι → Option Timespec) : Prop where
  /-- No client was told a later time. -/
  le : ∀ i m b t, told i = some m → v.served = some (b, t) → m = t ∨ m < t
  /-- A clean copy is dated, its record is the nanosecond part, and it is right while the time
  is. -/
  clean : ∀ i d, v.cached i = some d → v.recorded i ≠ modifiedFlag →
    ∃ m, told i = some m ∧ v.recorded i = Int64.ofNat m.tv_nsec ∧
      ∀ b, v.served = some (b, m) → d = b

end View

namespace Watched

variable {ι : Type} [DecidableEq ι] (P : Params ι) (p : Path)

/-- A step in which a client completes an operation on `p`. -/
def call (x : Watched ι) (c : Call ι) : Option (Watched ι) :=
  (x.world.call P c).map fun w =>
    ⟨w, (x.world.view P p).tell x.told c.client c.op ((w.served P p).map (·.mtim))⟩

/-- Every store gets a later time than the file had. -/
def Later (x : Watched ι) (c : Call ι) : Prop :=
  x.world.stores c = true → ∀ f, x.world.served P p = some f → f.mtim < c.now

/-- The nanosecond part is enough for the client: with a clean copy, the file still has the time
that came with the record, or the nanosecond part is greater than the recorded one. -/
def Notices (x : Watched ι) (i : ι) : Prop :=
  x.world.cached P i p ≠ none → x.world.recorded i p ≠ modifiedFlag →
    ∀ f, x.world.served P p = some f →
      x.told i = some f.mtim ∨ (x.world.recorded i p).toInt < f.mtim.tv_nsec

end Watched

namespace View

variable {ι : Type} [DecidableEq ι] {v : View ι} {told : ι → Option Timespec} {i : ι}
  {now : Timespec}

/-- An operation after which the server, the client's copy and its record are as before, or the
copy became modified. -/
private theorem Dated.same (op : Op) (h : v.Dated told) (hl : v.learns i op = false)
    (hserved : (v.next i now op).served = v.served)
    (hcopy : (v.next i now op).recorded i = modifiedFlag ∨
      (v.copies i).next now op = v.copies i) (t : Option Timespec) :
    (v.next i now op).Dated (v.tell told i op t) := by
  simp only [tell, hl, Bool.false_eq_true, if_false]
  refine ⟨fun j m b t hm hb => h.le j m b t hm (by rw [← hserved, hb]), fun j d hd hr => ?_⟩
  rw [hserved]
  by_cases hj : j = i
  · subst hj
    have hn := hcopy.resolve_left hr
    rw [cached_next_self, hn] at hd
    rw [recorded_next_self, hn] at hr ⊢
    exact h.clean j d hd hr
  · rw [cached_next_of_ne _ _ _ hj] at hd
    rw [recorded_next_of_ne _ _ _ hj] at hr ⊢
    exact h.clean j d hd hr

/-- A fetch or a store: the client holds the server's present bytes with their present time. -/
private theorem Dated.learn (op : Op) (h : v.Dated told) (hl : v.learns i op = true)
    {b₀ b : Bytes} {t₀ t : Timespec} (hv : v.served = some (b₀, t₀))
    (hn : (v.copies i).next now op = ⟨some (b, t), some b, Int64.ofNat t.tv_nsec⟩)
    (hlater : (b₀ = b ∧ t₀ = t) ∨ t₀ < t) :
    (v.next i now op).Dated (v.tell told i op (some t)) := by
  have hserved : (v.next i now op).served = some (b, t) := by rw [served_next, hn]
  have hle : ∀ j m, told j = some m → (b₀ = b ∧ t₀ = t ∧ m = t) ∨ m < t := by
    intro j m hm
    rcases h.le j m b₀ t₀ hm hv with rfl | hlt
    · exact hlater.imp (fun he => ⟨he.1, he.2, he.2⟩) id
    · rcases hlater with ⟨-, rfl⟩ | hlt'
      · exact Or.inr hlt
      · exact Or.inr (Timespec.lt_trans hlt hlt')
  simp only [tell, hl, if_true]
  refine ⟨fun j m b' t' hm hb => ?_, fun j d hd hr => ?_⟩
  · obtain ⟨-, rfl⟩ := Prod.mk.inj (Option.some.inj (hserved.symm.trans hb))
    by_cases hj : j = i
    · rw [hj, Function.update_self] at hm
      exact Or.inl (Option.some.inj hm).symm
    · rw [Function.update_of_ne hj] at hm
      exact (hle j m hm).imp (fun he => he.2.2) id
  · by_cases hj : j = i
    · subst hj
      rw [cached_next_self, hn] at hd
      rw [recorded_next_self, hn] at hr ⊢
      refine ⟨t, Function.update_self .., rfl, fun b' hb' => ?_⟩
      rw [hserved] at hb'
      rw [← Option.some.inj hd]
      exact (Prod.mk.inj (Option.some.inj hb')).1
    · rw [cached_next_of_ne _ _ _ hj] at hd
      rw [recorded_next_of_ne _ _ _ hj] at hr ⊢
      obtain ⟨m, hm, hrec, hbytes⟩ := h.clean j d hd hr
      refine ⟨m, by rw [Function.update_of_ne hj, hm], hrec, fun b' hb' => ?_⟩
      obtain ⟨rfl, rfl⟩ := Prod.mk.inj (Option.some.inj (hserved.symm.trans hb'))
      rcases hle j t hm with ⟨rfl, rfl, -⟩ | hlt
      · exact hbytes _ hv
      · exact absurd hlt (Timespec.lt_irrefl t)

/-- One operation on a shared file keeps what is known about the times. -/
theorem Dated.next {op : Op} (h : v.Dated told) (now : Timespec) (hop : op.Shares) (hserved : v.served ≠ none)
    (hf : (v.copies i).Fits op)
    (hlater : v.stores i op = true → ∀ b t, v.served = some (b, t) → t < now) :
    (v.next i now op).Dated (v.tell told i op ((v.next i now op).served.map (·.2))) := by
  obtain ⟨⟨b₀, t₀⟩, hv⟩ := Option.ne_none_iff_exists'.mp hserved
  cases op with
  | openF =>
      by_cases hst : (v.copies i).stale = true
      · have hn : (v.copies i).next now .openF =
            ⟨some (b₀, t₀), some b₀, Int64.ofNat t₀.tv_nsec⟩ := by
          simp only [Copies.next, hst, if_true, Copies.fetched]
          simp only [copies, hv]
        rw [served_next, hn]
        exact h.learn .openF hst hv hn (Or.inl ⟨rfl, rfl⟩)
      · have hn : (v.copies i).next now .openF = v.copies i := by
          simp only [Copies.next, hst, Bool.false_eq_true, if_false]
        exact h.same .openF (Bool.eq_false_iff.mpr hst) (by rw [served_next, hn]; rfl)
          (Or.inr hn) _
  | write k buffer offset =>
      refine h.same (.write k buffer offset) rfl ?_ ?_ _
      · simp only [served_next, Copies.next]
        split <;> rfl
      · by_cases hb : buffer = []
        · exact Or.inr (by simp only [Copies.next, hb, if_true])
        · exact Or.inl (by simp only [recorded_next_self, Copies.next, hb, if_false])
  | release k =>
      by_cases hm : v.recorded i = modifiedFlag
      · obtain ⟨b, hb⟩ := Option.ne_none_iff_exists'.mp hf
        change v.cached i = some b at hb
        have hn : (v.copies i).next now (.release k) =
            ⟨some (b, now), some b, Int64.ofNat now.tv_nsec⟩ := by
          simp only [Copies.next, copies, hm, if_true, Copies.stored, hb, Option.map_some]
        have hst : v.stores i (.release k) = true := decide_eq_true hm
        rw [served_next, hn]
        exact h.learn (.release k) hst hv hn (Or.inr (hlater hst _ _ hv))
      · have hn : (v.copies i).next now (.release k) = v.copies i := if_neg hm
        exact h.same (.release k) (decide_eq_false hm) (by rw [served_next, hn]; rfl)
          (Or.inr hn) _
  | read | fsync | getattr => exact h.same _ rfl rfl (Or.inr rfl) _
  | _ => exact absurd hop not_false

/-- The nanosecond part is enough for the client to notice a newer file. -/
def Notices (v : View ι) (told : ι → Option Timespec) (i : ι) (t : Timespec) : Prop :=
  v.cached i ≠ none → v.recorded i ≠ modifiedFlag →
    told i = some t ∨ (v.recorded i).toInt < t.tv_nsec

omit [DecidableEq ι] in
/-- An open leaves the present bytes if the client notices what is newer, and otherwise a copy with
an earlier time. -/
private theorem Dated.open_copy {b₀ : Bytes} {t₀ : Timespec} (h : v.Dated told) (i : ι)
    (now : Timespec)
    (hv : v.served = some (b₀, t₀)) :
    ((v.copies i).next now .openF).served = some (b₀, t₀) ∧
      ∃ b, ((v.copies i).next now .openF).cached = some b ∧
        (v.Notices told i t₀ → b = b₀) ∧
        (¬ v.Notices told i t₀ → v.cached i = some b ∧ ∃ m, told i = some m ∧ m < t₀) := by
  have hstale : (v.copies i).stale = true ↔
      (v.cached i ≠ none → (v.recorded i).toInt < t₀.tv_nsec) := by
    simp only [Copies.stale, copies, hv]
    cases v.cached i with
    | none => simp
    | some d => simp
  by_cases hst : (v.copies i).stale = true
  · simp only [Copies.next, hst, if_true, Copies.fetched]
    simp only [copies, hv]
    refine ⟨trivial, b₀, rfl, fun _ => rfl, fun hn => absurd ?_ hn⟩
    exact fun hc _ => Or.inr (hstale.mp hst hc)
  · have hkeep : (v.copies i).next now .openF = v.copies i := by
      simp only [Copies.next, hst, Bool.false_eq_true, if_false]
    rw [hstale, Classical.not_imp] at hst
    obtain ⟨d, hd⟩ := Option.ne_none_iff_exists'.mp hst.1
    have hflag : v.recorded i ≠ modifiedFlag := by
      intro hm
      have hneg : modifiedFlag.toInt < 0 := by decide
      rw [hm] at hst
      omega
    obtain ⟨m, hm, -, hbytes⟩ := h.clean i d hd hflag
    rw [hkeep]
    refine ⟨hv, d, hd, fun hn => ?_, fun hn => ⟨hd, m, hm, ?_⟩⟩
    · rcases hn hst.1 hflag with ht | hlt
      · obtain rfl := Option.some.inj (hm.symm.trans ht)
        exact hbytes b₀ hv
      · exact absurd hlt hst.2
    · rcases h.le i m b₀ t₀ hm hv with rfl | hlt
      · exact absurd (fun _ _ => Or.inl hm) hn
      · exact hlt

end View

namespace Watched

variable {ι : Type} [DecidableEq ι] {P : Params ι} {p : Path} {w₀ : World ι} {x : Watched ι}

/-- A live system whose records are dated. -/
private structure Sees (P : Params ι) (p : Path) (x : Watched ι) : Prop where
  live : x.world.Live P {p}
  dated : (x.world.view P p).Dated x.told

private theorem Sees.call {c : Call ι} {y : Watched ι} (hU : Names {p}) (h : Sees P p x)
    (hc : c.Shares {p}) (hl : x.Later P p c) (hs : x.call P p c = some y) : Sees P p y := by
  obtain ⟨w, hw, rfl⟩ := Option.map_eq_some_iff.mp hs
  obtain ⟨hlive, hview, -⟩ := h.live.call hU hc hw
  obtain rfl : c.path = p := hc.path
  have hsess : c.op.InSession ((x.world.view P c.path).sessions c.client).length := by
    simpa only [World.view, List.length_map] using World.inSession_of_call hw
  have hv := h.live.views _ rfl
  refine ⟨hlive, ?_⟩
  have hd := h.dated.next c.now hc.op hv.served (hv.fits hc.op hsess).copies
    fun hst b t hb => ?_
  · rw [← hview] at hd
    have hm : (w.served P c.path).map (·.mtim) = (w.view P c.path).served.map (·.2) := by
      simp only [World.view, Option.map_map]
      rfl
    simpa only [hm] using hd
  · obtain ⟨f, hf, hbt⟩ := Option.map_eq_some_iff.mp hb
    rw [← (Prod.mk.inj hbt).2]
    exact hl hst f hf

/-- In every run in which stores get later and later times, an open leaves the server's bytes in
the cache if the nanosecond part was enough for the client; otherwise it keeps a copy that was
told an earlier time. -/
theorem open_fresh {cs : List (Call ι)} {c : Call ι} (hp : RootLevel p) (hdb : p ≠ databasePath)
    (h0 : w₀.Start P {p})
    (hr : Run (Watched.call P p) (fun x c => c.Shares {p} ∧ x.Later P p c)
      ⟨w₀, fun _ => none⟩ cs x)
    (hc : c.Shares {p}) (hop : c.op = .openF) :
    ∃ r w f b, x.world.perform P c = some (some r, w) ∧ r.ret = 0 ∧
      w.served P p = some f ∧ w.cached P c.client p = some b ∧
      (x.Notices P p c.client → b = f.bytes) ∧
      (¬ x.Notices P p c.client → x.world.cached P c.client p = some b ∧
        ∃ m, x.told c.client = some m ∧ m < f.mtim) := by
  have hU := World.names_singleton hp hdb
  have hstart : Sees P p ⟨w₀, fun _ => none⟩ := by
    refine ⟨h0.live, fun i m b t hm => absurd hm (by simp), fun i d hd => absurd hd ?_⟩
    simp only [World.view, h0.cached i p rfl, reduceCtorEq, not_false_iff]
  have hx : Sees P p x := hr.invariant _ hstart fun s e t hs ho hst => hs.call hU ho.1 ho.2 hst
  obtain rfl : c.path = p := hc.path
  obtain ⟨r, w, hperf, -, hview, -, hans⟩ := hx.live.perform hU hc (by
    rw [hop]
    exact fun k hk => by simp [Op.session] at hk)
  obtain ⟨⟨b₀, t₀⟩, hv⟩ := Option.ne_none_iff_exists'.mp (hx.live.views _ rfl).served
  obtain ⟨f₀, hf₀, hbt⟩ := Option.map_eq_some_iff.mp hv
  obtain ⟨rfl, rfl⟩ := Prod.mk.inj hbt
  rw [hop] at hans hview
  obtain ⟨hsrv, b, hb, hyes, hno⟩ := hx.dated.open_copy c.client c.now hv
  have hserved : (w.view P c.path).served = some (f₀.bytes, f₀.mtim) := by
    rw [hview, View.served_next, hsrv]
  have hcached : (w.view P c.path).cached c.client = some b := by
    rw [hview, View.cached_next_self, hb]
  obtain ⟨f, hf, hft⟩ := Option.map_eq_some_iff.mp hserved
  obtain ⟨hfb, hfm⟩ := Prod.mk.inj hft
  have hnotices : x.Notices P c.path c.client ↔
      (x.world.view P c.path).Notices x.told c.client f₀.mtim := by
    refine ⟨fun hn hc hr => hn hc hr f₀ hf₀, fun hn hc hr g hg => ?_⟩
    obtain rfl := Option.some.inj (hf₀.symm.trans hg)
    exact hn hc hr
  refine ⟨r, w, f, b, hperf, hans, hf, hcached, fun hn => ?_, fun hn => ?_⟩
  · rw [hfb]
    exact hyes (hnotices.mp hn)
  · rw [hfm]
    exact hno (fun h => hn (hnotices.mpr h))

/-- Every run of the system is followed by a run that watches it. -/
theorem exists_watched_run {ok : World ι → Call ι → Prop} {w : World ι} {cs : List (Call ι)}
    (told : ι → Option Timespec) (h : Run (World.call P) ok w₀ cs w) :
    ∃ told', Run (Watched.call P p) (fun x c => ok x.world c) ⟨w₀, told⟩ cs ⟨w, told'⟩ := by
  induction h with
  | nil => exact ⟨told, Run.nil⟩
  | @snoc cs t u c _ ho hs ih =>
      obtain ⟨told', hr⟩ := ih
      exact ⟨_, hr.snoc ho (by simp only [Watched.call, hs, Option.map_some]; rfl)⟩

/-- The first client opens the file, the second one stores new bytes with the given time. -/
def newer (t : Timespec) : List (Bool × Timespec × Op) :=
  [(false, sampleTime 1 0, .openF), (false, sampleTime 1 0, .release 0), (true, sampleTime 1 0, .openF),
    (true, sampleTime 1 0, .write 0 [7, 8] 0), (true, t, .release 0)]

/-- The first client opens the file again. -/
def reopen : Call (Bool) where
  client := false
  path := sampleFile
  op := .openF
  now := sampleTime 3 0
  junk := .zero

/-- A script of the sample system with later and later stores is a run. -/
private theorem exists_later_run {l : List (Bool × Timespec × Op)} {v : View (Bool)}
    (h : View.script (fun v c => c.op.Shares ∧
        (v.stores c.client c.op = true → (v.served.elim true fun y => y.2 < c.now) = true))
      ⟨some ([1], sampleTime 0 500), fun _ => none, fun _ => -1, fun _ => []⟩ (sampleCalls l) =
      some v) :
    ∃ w, Run (World.call sample) (fun w c => c.Shares {sampleFile} ∧
        (w.stores c = true → ∀ f, w.served sample sampleFile = some f → f.mtim < c.now))
        sampleBoot (sampleCalls l) w ∧ w.view sample sampleFile = v := by
  obtain ⟨w, hr, -, hv⟩ := exists_sample_run _ (fun w c => c.Shares {sampleFile} ∧
    (w.stores c = true → ∀ f, w.served sample sampleFile = some f → f.mtim < c.now))
    (fun w c hc hp hq => by
      obtain ⟨hop, hlater⟩ := of_decide_eq_true hc
      refine ⟨⟨hp, hq, hop⟩, fun hst f hf => ?_⟩
      have hview : (w.view sample sampleFile).stores c.client c.op = true := by
        rw [← hp]
        exact hst
      have helim := hlater hview
      simp only [World.view, hf, Option.map_some, Option.elim_some] at helim
      exact of_decide_eq_true helim) h
  exact ⟨w, hr, hv⟩

/-- The second client's store is later, but its nanosecond part is smaller than the one the first
client recorded, and the first client's open keeps its copy. -/
theorem stale_copy_kept :
    ∃ w r w', Run (World.call sample) (fun w c => c.Shares {sampleFile} ∧
        (w.stores c = true → ∀ f, w.served sample sampleFile = some f → f.mtim < c.now))
        sampleBoot (sampleCalls (newer (sampleTime 1 100))) w ∧
      w.perform sample reopen = some (some r, w') ∧ r.ret = 0 ∧
      w.recorded false sampleFile ≠ modifiedFlag ∧ w'.cached sample false sampleFile = some [1] ∧
      (w'.served sample sampleFile).map (·.bytes) = some [7, 8] := by
  obtain ⟨w, hr, hv⟩ := exists_later_run (l := newer (sampleTime 1 100)) rfl
  have hlive := start_sampleBoot.live.run names_sampleFile (fun _ _ h => h.1) hr
  obtain ⟨r, w', hperf, -, hview, -, hret⟩ := hlive.perform (c := reopen) names_sampleFile
    ⟨rfl, ⟨rfl, rfl⟩, trivial⟩ (fun k hk => by simp [reopen, Op.session] at hk)
  have hv' : w'.view sample sampleFile = _ := hview
  rw [show reopen.path = sampleFile from rfl, hv] at hv'
  refine ⟨w, r, w', hr, hperf, hret, ?_, congrFun (congrArg View.cached hv') false, ?_⟩
  · have hrec : w.recorded false sampleFile = 500 := congrFun (congrArg View.recorded hv) false
    rw [hrec]
    decide
  · have hs : (w'.view sample sampleFile).served.map (·.1) = some [7, 8] := by
      rw [hv']
      rfl
    simp only [World.view, Option.map_map] at hs
    exact hs

/-- When the nanosecond part of the store is greater, the first client takes the new bytes. -/
theorem open_fresh_newer :
    ∃ x r w f, Run (Watched.call sample sampleFile)
        (fun x c => c.Shares {sampleFile} ∧ x.Later sample sampleFile c)
        ⟨sampleBoot, fun _ => none⟩ (sampleCalls (newer (sampleTime 1 600))) x ∧
      x.world.perform sample reopen = some (some r, w) ∧ w.served sample sampleFile = some f ∧
      w.cached sample false sampleFile = some f.bytes := by
  obtain ⟨w, hr, hv⟩ := exists_later_run (l := newer (sampleTime 1 600)) rfl
  obtain ⟨told, hx⟩ := exists_watched_run (p := sampleFile) (fun _ => none) hr
  obtain ⟨r, w', f, b, hperf, -, hf, hb, hfresh, -⟩ := open_fresh (c := reopen)
    rootLevel_sampleFile (by decide) start_sampleBoot hx ⟨rfl, ⟨rfl, rfl⟩, trivial⟩ rfl
  refine ⟨_, r, w', f, hx, hperf, hf, ?_⟩
  rw [← hfresh fun _ _ g hg => Or.inr ?_]
  · exact hb
  · have hrec : w.recorded false sampleFile = 500 := congrFun (congrArg View.recorded hv) false
    have hserved : (w.view sample sampleFile).served = some ([7, 8], sampleTime 1 600) := by
      rw [hv]
      rfl
    simp only at hg
    simp only [World.view, hg, Option.map_some, Option.some.injEq, Prod.mk.injEq] at hserved
    simp only [hserved.2, hrec, reopen]
    decide

end Watched

end Afs
