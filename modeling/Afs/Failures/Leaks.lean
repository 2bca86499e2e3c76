import Mathlib.Data.List.Perm.Basic
import Afs.Failures.Descriptors

/-!
# Descriptors over whole runs of sessions

Every open session has a descriptor of its own. What a client holds beyond these is what its sessions have
left behind: no operation makes it smaller, and it stays the same exactly as long as every operation is
spared.
-/

namespace Afs

open Posix Interaction Transition

section Owners

variable {κ R : Type} {F : κ → List R} {p : κ} {x : R}

/-- Everything in one of the lists. -/
def Owned (F : κ → List R) : Set R := {x | ∃ p, x ∈ F p}

/-- Nothing is in two places. -/
structure OwnedOnce (F : κ → List R) : Prop where
  nodup : ∀ p, (F p).Nodup
  apart : ∀ p q, p ≠ q → ∀ x ∈ F p, x ∉ F q

variable [DecidableEq κ]

/-- Something new for one of the lists. -/
theorem OwnedOnce.append (h : OwnedOnce F) (hx : x ∉ Owned F) :
    OwnedOnce (Function.update F p (F p ++ [x])) ∧
      Owned (Function.update F p (F p ++ [x])) = insert x (Owned F) := by
  have hmem : ∀ q y, y ∈ Function.update F p (F p ++ [x]) q ↔ y ∈ F q ∨ q = p ∧ y = x := by
    intro q y
    by_cases hq : q = p
    · subst hq
      rw [Function.update_self, List.mem_append, List.mem_singleton]
      simp only [true_and]
    · rw [Function.update_of_ne hq]
      simp only [hq, false_and, or_false]
  refine ⟨⟨fun q => ?_, fun q r hqr y hy hy' => ?_⟩, ?_⟩
  · by_cases hq : q = p
    · subst hq
      rw [Function.update_self, List.nodup_append]
      refine ⟨h.nodup q, List.pairwise_singleton _ x, fun y hy z hz hyz => hx ⟨q, ?_⟩⟩
      rwa [← List.mem_singleton.mp hz, ← hyz]
    · rw [Function.update_of_ne hq]
      exact h.nodup q
  · rcases (hmem q y).mp hy with hold | ⟨hqp, hyx⟩
    · rcases (hmem r y).mp hy' with hold' | ⟨-, hyx⟩
      · exact h.apart q r hqr y hold hold'
      · exact hx ⟨q, hyx ▸ hold⟩
    · rcases (hmem r y).mp hy' with hold' | ⟨hrp, -⟩
      · exact hx ⟨r, hyx ▸ hold'⟩
      · exact hqr (hqp.trans hrp.symm)
  · ext y
    constructor
    · rintro ⟨q, hy⟩
      rcases (hmem q y).mp hy with hold | ⟨-, rfl⟩
      · exact Or.inr ⟨q, hold⟩
      · exact Or.inl rfl
    · rintro (rfl | ⟨q, hold⟩)
      · exact ⟨p, (hmem p y).mpr (Or.inr ⟨rfl, rfl⟩)⟩
      · exact ⟨q, (hmem q y).mpr (Or.inl hold)⟩

/-- Something taken out of one of the lists. -/
theorem OwnedOnce.eraseIdx (h : OwnedOnce F) {k : Nat} (hx : (F p)[k]? = some x) :
    OwnedOnce (Function.update F p ((F p).eraseIdx k)) ∧
      Owned (Function.update F p ((F p).eraseIdx k)) = Owned F \ {x} := by
  obtain ⟨hk, hget⟩ := List.getElem?_eq_some_iff.mp hx
  have hperm : List.Perm (x :: (F p).eraseIdx k) (F p) := hget ▸ List.getElem_cons_eraseIdx_perm hk
  obtain ⟨hnot, hrest⟩ := List.nodup_cons.mp (hperm.nodup_iff.mpr (h.nodup p))
  have hxp : x ∈ F p := hperm.mem_iff.mp List.mem_cons_self
  have hmem : ∀ q y, y ∈ Function.update F p ((F p).eraseIdx k) q ↔ y ∈ F q ∧ y ≠ x := by
    intro q y
    by_cases hq : q = p
    · subst hq
      rw [Function.update_self]
      constructor
      · intro hy
        refine ⟨hperm.mem_iff.mp (List.mem_cons_of_mem x hy), ?_⟩
        rintro rfl
        exact hnot hy
      · rintro ⟨hy, hne⟩
        exact (List.mem_cons.mp (hperm.mem_iff.mpr hy)).resolve_left hne
    · rw [Function.update_of_ne hq]
      refine (and_iff_left_of_imp ?_).symm
      rintro hy rfl
      exact h.apart q p hq y hy hxp
  refine ⟨⟨fun q => ?_, fun q r hqr y hy hy' => ?_⟩, ?_⟩
  · by_cases hq : q = p
    · subst hq
      rwa [Function.update_self]
    · rw [Function.update_of_ne hq]
      exact h.nodup q
  · exact h.apart q r hqr y ((hmem q y).mp hy).1 ((hmem r y).mp hy').1
  · ext y
    constructor
    · rintro ⟨q, hy⟩
      obtain ⟨hold, hne⟩ := (hmem q y).mp hy
      exact ⟨⟨q, hold⟩, hne⟩
    · rintro ⟨⟨q, hold⟩, hne⟩
      exact ⟨q, (hmem q y).mpr ⟨hold, hne⟩⟩

end Owners

/-- What is held beyond what is owned, when a program settles: it stays exactly if the program is spared. -/
theorem Tally.Settles.beyond {K S L : Set Int} {g : Tally} (h : g.Settles K) (hS : S ⊆ K)
    (hK : K \ S = L) : S ⊆ g.held ∧ L ⊆ g.held \ S ∧ (g.held \ S = L ↔ g.spared) := by
  rcases h with ⟨hheld, hspared⟩ | ⟨fd, hfd, hheld, hno⟩
  · rw [hheld, hK]
    exact ⟨hS, le_refl L, iff_of_true rfl hspared⟩
  · have hdiff : insert fd K \ S = insert fd L := by
      rw [Set.insert_sdiff_of_notMem _ fun hin => hfd (hS hin), hK]
    have hfree : fd ∉ L := by
      rw [← hK]
      exact fun hin => hfd hin.1
    rw [hheld, hdiff]
    refine ⟨hS.trans (Set.subset_insert fd K), Set.subset_insert fd L, iff_of_false ?_ hno⟩
    intro heq
    exact hfree (heq ▸ Set.mem_insert fd L)

/-- The handles of the open sessions on a path after an operation that returned `r`. -/
def Op.handles (r : Result) (l : List Int) : Op → List Int
  | .create | .openF => if r.ret = 0 then l ++ [r.fh] else l
  | .release k => l.eraseIdx k
  | _ => l

theorem Op.map_fh_sessions (cached : Option Bytes) (r : Result) (l : List Session) (op : Op) :
    (op.sessions cached r l).map (·.fh) = op.handles r (l.map (·.fh)) := by
  cases op with
  | create | openF =>
      by_cases hret : r.ret = 0
      · simp only [sessions, handles, hret, if_true, List.map_append, List.map_singleton]
      · simp only [sessions, handles, hret, if_false]
  | write k buffer offset =>
      simp only [sessions, handles]
      split
      · ext j
        simp only [List.getElem?_map, List.getElem?_modify]
        split <;> cases l[j]? <;> rfl
      · rfl
  | release k => exact (List.eraseIdx_map ..).symm
  | _ => rfl

section Step

variable {F : Path → List Int} {p : Path} {H : Set Int} {r : Result} {g : Tally} {fh : Int}

/-- An operation of a session, when every open session owns a descriptor: afterwards every open session
owns one again, no descriptor beyond these is given back, and another one is left behind unless the
operation is spared. -/
theorem Op.balances_beyond {op : Op} (h : op.Balances fh H r g) (hF : OwnedOnce F) (hH : Owned F ⊆ H)
    (hfh : ∀ k, op = .release k → (F p)[k]? = some fh) :
    OwnedOnce (Function.update F p (op.handles r (F p))) ∧
      Owned (Function.update F p (op.handles r (F p))) ⊆ g.held ∧
      H \ Owned F ⊆ g.held \ Owned (Function.update F p (op.handles r (F p))) ∧
      (g.held \ Owned (Function.update F p (op.handles r (F p))) = H \ Owned F ↔ g.spared) := by
  have hsame : g.Settles H → op.handles r (F p) = F p →
      OwnedOnce (Function.update F p (op.handles r (F p))) ∧
        Owned (Function.update F p (op.handles r (F p))) ⊆ g.held ∧
        H \ Owned F ⊆ g.held \ Owned (Function.update F p (op.handles r (F p))) ∧
        (g.held \ Owned (Function.update F p (op.handles r (F p))) = H \ Owned F ↔ g.spared) := by
    intro hg heq
    rw [heq, Function.update_eq_self]
    exact ⟨hF, hg.beyond hH rfl⟩
  cases op with
  | create | openF =>
      by_cases hret : r.ret = 0
      · obtain ⟨hfree, hg⟩ := h.1 hret
        obtain ⟨honce, howned⟩ := hF.append (p := p) fun hin => hfree (hH hin)
        have hrest : insert r.fh H \ insert r.fh (Owned F) = H \ Owned F := by
          rw [Set.insert_sdiff_of_mem _ (Set.mem_insert r.fh _), Set.sdiff_insert_of_notMem hfree]
        simp only [handles, hret, if_true, howned]
        exact ⟨honce, hg.beyond (Set.insert_subset_insert hH) hrest⟩
      · exact hsame (h.2 hret) (if_neg hret)
  | release k =>
      have hk := hfh k rfl
      have hin : fh ∈ Owned F := ⟨p, List.mem_of_getElem? hk⟩
      obtain ⟨honce, howned⟩ := hF.eraseIdx hk
      have hrest : (H \ {fh}) \ (Owned F \ {fh}) = H \ Owned F := by
        ext x
        constructor
        · rintro ⟨⟨hx, hne⟩, hno⟩
          exact ⟨hx, fun hown => hno ⟨hown, hne⟩⟩
        · rintro ⟨hx, hno⟩
          refine ⟨⟨hx, ?_⟩, fun hown => hno hown.1⟩
          rintro rfl
          exact hno hin
      simp only [handles, howned]
      exact ⟨honce, Tally.Settles.beyond h (Set.sdiff_subset_sdiff_left hH) hrest⟩
  | read | write | fsync | getattr | truncate | chown | chmod | utimens | unlink | mkdir | rmdir | readdir =>
      exact hsame h rfl

end Step

/-- The path of an operation. -/
def Event.path {ι : Type} : Event ι → Option Path
  | .call c => some c.path
  | .start .. | .late .. => none

namespace World

variable {ι : Type} [DecidableEq ι] {P : Params ι} {w w' w₀ : World ι} {i : ι}

/-- The descriptors that a client holds. -/
def held (w : World ι) (i : ι) : Set Int := (w.disk i).held

/-- The handles of the open sessions of a client on a path. -/
def handles (w : World ι) (i : ι) (p : Path) : List Int := (w.sessions i p).map (·.fh)

/-- What a client holds beyond the descriptors of its open sessions. -/
def leftBehind (w : World ι) (i : ι) : Set Int := w.held i \ Owned (w.handles i)

/-- No session of the client is open. -/
def Idle (w : World ι) (i : ι) : Prop := ∀ p, w.sessions i p = []

/-- Every open session of the client has a descriptor of its own. -/
structure Handed (w : World ι) (i : ι) : Prop where
  once : OwnedOnce (w.handles i)
  held : Owned (w.handles i) ⊆ w.held i

/-- The client does nothing but work in sessions and is not started again, and in its operations calls
behave as they should and the process lives on. -/
def Sessional (P : Params ι) (i : ι) (w : World ι) : Event ι → Prop
  | .call c => c.client = i → c.op.InSessions ∧ ∀ fh ∈ w.handle c,
      (c.op.prog c.junk c.path (P.cache_path i) fh).Meets (Env.exec ⟨P.root_path, c.junk⟩)
        (Cmd.Sane ⟨P.root_path, c.junk⟩) (w.state i c.now c.faults c.net) ∧
      ((c.op.prog c.junk c.path (P.cache_path i) fh).run (Env.exec ⟨P.root_path, c.junk⟩)
        (w.state i c.now c.faults c.net)).1.isSome
  | .start j .. => j ≠ i
  | .late .. => True

/-- All commands of an operation of the client answer thriftily. -/
def Thrifty (P : Params ι) (i : ι) (w : World ι) : Event ι → Prop
  | .call c => c.client = i → ∀ fh ∈ w.handle c,
      (c.op.prog c.junk c.path (P.cache_path i) fh).Meets (Env.exec ⟨P.root_path, c.junk⟩)
        (Cmd.AnswersThriftily ⟨P.root_path, c.junk⟩ c.op) (w.state i c.now c.faults c.net)
  | .start .. | .late .. => True

instance : (e : Event ι) → Decidable (w.Sessional P i e)
  | .call c => inferInstanceAs (Decidable (c.client = i → c.op.InSessions ∧ ∀ fh ∈ w.handle c, _ ∧ _))
  | .start j .. => inferInstanceAs (Decidable (j ≠ i))
  | .late .. => .isTrue trivial

omit [DecidableEq ι] in
theorem Idle.leftBehind (h : w.Idle i) : Owned (w.handles i) = ∅ ∧ w.leftBehind i = w.held i := by
  have hnone : Owned (w.handles i) = ∅ := by
    ext x
    refine iff_of_false ?_ id
    rintro ⟨p, hx⟩
    rw [handles, h p] at hx
    cases hx
  exact ⟨hnone, by rw [World.leftBehind, hnone, Set.sdiff_empty]⟩

omit [DecidableEq ι] in
theorem Idle.handed (h : w.Idle i) : w.Handed i := by
  refine ⟨⟨fun p => ?_, fun p q _ x hx => ?_⟩, ?_⟩
  · rw [handles, h p]
    exact List.Pairwise.nil
  · rw [handles, h p] at hx
    cases hx
  · rw [h.leftBehind.1]
    exact Set.empty_subset _

/-- An operation of a session. -/
private theorem perform_left_behind {c : Call ι} {x : Option Result} (h : w.Handed c.client)
    (he : w.Sessional P c.client (.call c)) (hs : w.perform P c = some (x, w')) :
    w'.Handed c.client ∧ w.leftBehind c.client ⊆ w'.leftBehind c.client ∧
      (w'.leftBehind c.client = w.leftBehind c.client ↔ w.Thrifty P c.client (.call c)) := by
  obtain ⟨-, fh, hfh, hout⟩ := perform_eq_some.mp hs
  obtain ⟨hop, hall⟩ := he rfl
  obtain ⟨hm, hlives⟩ := hall fh hfh
  obtain ⟨r, hr⟩ := Option.isSome_iff_exists.mp hlives
  generalize hrun : (c.op.prog c.junk c.path (P.cache_path c.client) fh).run
    (Env.exec ⟨P.root_path, c.junk⟩) (w.state c.client c.now c.faults c.net) = out at *
  obtain ⟨y, t⟩ := out
  obtain rfl : y = some r := hr
  obtain ⟨-, rfl⟩ := Prod.mk.inj hout
  have hsession : ∀ k, c.op = .release k → (w.handles c.client c.path)[k]? = some fh := by
    intro k hk
    have hget := hfh
    rw [handle, hk] at hget
    rw [handles, List.getElem?_map]
    exact hget
  obtain ⟨e, hbal⟩ := tracks_run
    (c.op.prog_balances Fs.neg_one_not_held hop fun k hk =>
      h.held ⟨c.path, List.mem_of_getElem? (hsession k hk)⟩) hm hrun
  obtain ⟨b, hsessions⟩ := sessions_finish_self (w := w) (P := P) c.client c.path
    (fun r b l => c.op.sessions b r l) r t
  have hheld : (w.finish P c.client c.path (fun r b l => c.op.sessions b r l) (some r, t)).held c.client =
      t.disk.held := by
    rw [held, disk, clients_finish_self]
  have hhandles : (w.finish P c.client c.path (fun r b l => c.op.sessions b r l) (some r, t)).handles
      c.client = Function.update (w.handles c.client) c.path (c.op.handles r (w.handles c.client c.path)) := by
    ext1 p
    rw [handles, hsessions]
    by_cases hp : p = c.path
    · subst hp
      rw [Function.update_self, Function.update_self, Op.map_fh_sessions]
      rfl
    · rw [Function.update_of_ne hp, Function.update_of_ne hp]
      rfl
  obtain ⟨honce, hsub, hmore, hiff⟩ := Op.balances_beyond hbal h.once h.held hsession
  unfold leftBehind
  rw [hheld, hhandles]
  refine ⟨⟨hhandles ▸ honce, by rw [hhandles, hheld]; exact hsub⟩, hmore, hiff.trans ?_⟩
  constructor
  · intro hth _ fh' hfh'
    obtain rfl := Option.some.inj (hfh.symm.trans hfh')
    exact hth
  · intro hth
    exact hth rfl fh hfh

/-- An event leaves every open session a descriptor of its own, gives back nothing that was left behind,
and leaves more behind unless it is thrifty. -/
theorem step_left_behind {e : Event ι} (h : w.Handed i) (he : w.Sessional P i e)
    (hs : w.step P e = some w') :
    w'.Handed i ∧ w.leftBehind i ⊆ w'.leftBehind i ∧
      (w'.leftBehind i = w.leftBehind i ↔ w.Thrifty P i e) := by
  have hsame : w'.clients i = w.clients i → w'.sessions i = w.sessions i →
      w'.Handed i ∧ w.leftBehind i ⊆ w'.leftBehind i ∧ w'.leftBehind i = w.leftBehind i := by
    intro hc hl
    have hheld : w'.held i = w.held i := congrArg (fun x => Fs.held (ClientProc.proc x).fs) hc
    have hhandles : w'.handles i = w.handles i := by
      unfold handles
      rw [hl]
    have hleft : w'.leftBehind i = w.leftBehind i := by
      unfold leftBehind
      rw [hheld, hhandles]
    exact ⟨⟨hhandles ▸ h.once, hhandles ▸ hheld ▸ h.held⟩, hleft ▸ le_refl _, hleft⟩
  cases e with
  | call c =>
      obtain ⟨x, hperf, rfl⟩ := Option.map_eq_some_iff.mp hs
      by_cases hi : c.client = i
      · subst hi
        exact perform_left_behind h he hperf
      · obtain ⟨-, fh, hfh, rfl⟩ := perform_eq_some.mp hperf
        obtain ⟨hh, hle, heq⟩ := hsame (clients_finish_of_ne _ _ _ _ (Ne.symm hi))
          (sessions_finish_of_ne _ _ _ _ (Ne.symm hi))
        exact ⟨hh, hle, iff_of_true heq fun hci => absurd hci hi⟩
  | start j now junk faults =>
      obtain rfl := Option.some.inj hs
      have hj : i ≠ j := fun h => he h.symm
      obtain ⟨hh, hle, heq⟩ := hsame
        ((clients_finish_of_ne _ _ _ _ hj).trans (Function.update_of_ne hj ..))
        ((sessions_finish_of_ne _ _ _ _ hj).trans (Function.update_of_ne hj ..))
      exact ⟨hh, hle, iff_of_true heq trivial⟩
  | late k now x =>
      simp only [step] at hs
      split at hs
      · cases hs
      · obtain rfl := Option.some.inj hs
        obtain ⟨hh, hle, heq⟩ := hsame rfl rfl
        exact ⟨hh, hle, iff_of_true heq trivial⟩

/-- Whenever no session is open, a client holds the same descriptors as before the first session exactly
if every operation since then was thrifty. -/
theorem descriptors_conserved_iff {es : List (Event ι)} (h0 : w₀.Idle i)
    (hr : Run (World.step P) (Sessional P i) w₀ es w) (h : w.Idle i) :
    w.held i = w₀.held i ↔
      Run (World.step P) (fun w e => w.Sessional P i e ∧ w.Thrifty P i e) w₀ es w := by
  rw [← h.leftBehind.2, ← h0.leftBehind.2]
  exact hr.unchanged_iff (fun w => w.leftBehind i) (fun w => w.Handed i) h0.handed
    fun w e w' hw he hs => step_left_behind hw he hs

/-- An operation opens no session on another path. -/
private theorem step_none_open {e : Event ι} {p q : Path} (he : ∀ r ∈ e.path, r = p) (hq : q ≠ p)
    (h : w.sessions i q = []) (hs : w.step P e = some w') : w'.sessions i q = [] := by
  cases e with
  | call c =>
      obtain rfl := he c.path rfl
      obtain ⟨x, hperf, rfl⟩ := Option.map_eq_some_iff.mp hs
      obtain ⟨-, fh, -, rfl⟩ := perform_eq_some.mp hperf
      by_cases hi : c.client = i
      · subst hi
        exact sessions_finish_none _ _ _ _ (fun heq => absurd heq hq) h
      · rw [sessions_finish_of_ne _ _ _ _ (Ne.symm hi)]
        exact h
  | start j now junk faults =>
      obtain rfl := Option.some.inj hs
      by_cases hj : j = i
      · subst hj
        refine sessions_finish_none _ _ _ _ (fun _ _ _ => rfl) ?_
        change Function.update w.sessions j (fun _ => []) j q = []
        rw [Function.update_self]
      · rw [sessions_finish_of_ne _ _ _ _ (Ne.symm hj)]
        exact (congrFun (Function.update_of_ne (Ne.symm hj) ..) q).trans h
  | late k now x =>
      simp only [step] at hs
      split at hs
      · cases hs
      · obtain rfl := Option.some.inj hs
        exact h

/-- After operations on one path it is enough to look at the sessions on this path. -/
theorem Idle.of_run {ok : World ι → Event ι → Prop} {es : List (Event ι)} {p : Path} (h0 : w₀.Idle i)
    (hr : Run (World.step P) ok w₀ es w) (hes : ∀ e ∈ es, ∀ r ∈ e.path, r = p)
    (h : w.sessions i p = []) : w.Idle i := by
  intro q
  by_cases hq : q = p
  · subst hq
    exact h
  · refine hr.invariant_past (fun es w => (∀ e ∈ es, ∀ r ∈ e.path, r = p) → w.sessions i q = [])
      (fun _ => h0 q) (fun es t e u _ ht _ hu hall => ?_) hes
    refine step_none_open (hall e (List.mem_append_right _ List.mem_cons_self)) hq ?_ hu
    exact ht fun e he => hall e (List.mem_append_left _ he)

/-- The sample client opens its file and releases it again. -/
def plainSession : List (Event (Bool)) :=
  [.call (sampleCall false 1 .openF []), .call (sampleCall false 2 (.release 0) [])]

/-- A session that writes and cannot open its copy again when it is released. -/
def thriftySession : List (Event (Bool)) :=
  [.call (sampleCall false 1 .openF []), .call (sampleCall false 2 (.write 0 [7] 0) []),
    .call { sampleCall false 3 (.release 0) [] with faults := [.ok, .ok, .fail 24] }]

/-- A session of which nothing fails keeps a descriptor after its end. -/
theorem plain_session_leaks : ¬ ∀ (es : List (Event (Bool))) (w : World (Bool)),
    Run (World.step sample) (Sessional sample false) sampleBoot es w → w.Idle false →
      w.held false = sampleBoot.held false := by
  have h : (plainSession.foldlM (fun (w : World (Bool)) e =>
      if w.Sessional sample false e then w.step sample e else none) sampleBoot).map (fun w =>
        (w.sessions false sampleFile, ((w.disk false).getFd 0).isSome)) = some ([], true) := by
    decide +kernel
  obtain ⟨w, hfold, hw⟩ := Option.map_eq_some_iff.mp h
  obtain ⟨hnone, hfd⟩ := Prod.mk.inj hw
  have hr := Run.of_foldlM hfold
  intro hall
  have hidle : w.Idle false := Idle.of_run (fun _ => rfl) hr (by decide) hnone
  have hin : (0 : Int) ∈ w.held false := Option.isSome_iff_ne_none.mp hfd
  rw [hall _ w hr hidle] at hin
  exact hin rfl

/-- A session that leaves nothing behind. -/
theorem descriptors_conserved_thrifty :
    ∃ w, Run (World.step sample) (fun w e => w.Sessional sample false e ∧ w.Thrifty sample false e)
      sampleBoot thriftySession w ∧ w.Idle false := by
  have h : (thriftySession.foldlM (fun (w : World (Bool)) e =>
      if w.Sessional sample false e then w.step sample e else none) sampleBoot).map (fun w =>
        (w.sessions false sampleFile, (w.disk false).fds.all Option.isNone)) = some ([], true) := by
    decide +kernel
  obtain ⟨w, hfold, hw⟩ := Option.map_eq_some_iff.mp h
  obtain ⟨hnone, hfds⟩ := Prod.mk.inj hw
  have hr := Run.of_foldlM hfold
  have h0 : sampleBoot.Idle false := fun _ => rfl
  have hidle : w.Idle false := h0.of_run hr (by decide) hnone
  have hheld : w.held false = sampleBoot.held false :=
    (Fs.held_of_none hfds).trans (Fs.held_of_none rfl).symm
  exact ⟨w, (descriptors_conserved_iff h0 hr hidle).mp hheld, hidle⟩

end World

end Afs
