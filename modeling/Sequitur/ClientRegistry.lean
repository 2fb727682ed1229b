import Sequitur.Gateway
import Sequitur.Runs

namespace Sequitur.ClientRegistry

open Protocol CoreLoop Gateway

def writes : Phase → Bool
  | .locked _ | .bound _ | .clearing _ | .closed => true
  | _ => false

def reads : Egress → Bool
  | .dequeuing | .dequeued _ => false
  | _ => true

/-- A session in this phase can have an entry for the id: the cleanup has not
visited it yet. -/
def Keeps (traderId : UInt32) : Phase → Prop
  | .clearing rest => traderId ∈ rest
  | .closed | .done => False
  | _ => True

/-- The channel is closed at the end of the cleanup only, and an id that is to
be registered is in the session's own set. -/
structure Sound (x : Session) : Prop where
  closed : x.chClosed = true → x.phase = .closed ∨ x.phase = .done
  recorded : ∀ packet, x.phase = .recorded packet ∨ x.phase = .locked packet →
    packet.traderId ∈ x.localSessionTraders

structure Inv (s : State) : Prop where
  writer : ∀ c, writes (s.sessions c).phase = true ↔ s.registryMutex = .write c
  reader : reads s.egress = true ↔ s.registryMutex = .read
  session : ∀ c, Sound (s.sessions c)
  entry : ∀ traderId c, s.clientRegistry traderId = some c →
    traderId ∈ (s.sessions c).localSessionTraders ∧ Keeps traderId (s.sessions c).phase
  found : ∀ packet c, s.egress = .taker packet c ∨ s.egress = .maker packet c → (s.sessions c).chClosed = false
  panicked : s.panicked = false

variable {s s' : State} {a : Gateway.Action} {c : Nat}

theorem init_inv (buf : Nat → IngressPacket) (base : BitVec 64) : Inv (init buf base) where
  writer := by simp [init, Session.init, writes]
  reader := by simp [init, reads]
  session := fun c => ⟨by simp [init, Session.init], by simp [init, Session.init]⟩
  entry := by simp [init]
  found := by simp [init]
  panicked := rfl

theorem Inv.entry_open (h : Inv s) {traderId : UInt32} (he : s.clientRegistry traderId = some c) :
    (s.sessions c).chClosed = false := by
  obtain ⟨-, hk⟩ := h.entry traderId c he
  cases hc : (s.sessions c).chClosed with
  | false => rfl
  | true => rcases (h.session c).closed hc with hp | hp <;> rw [hp] at hk <;> exact hk.elim

theorem Inv.update (h : Inv s) {x : Session} {registry registered : UInt32 → Option Nat} {mutex : Lock}
    (hx : Sound x) (hwriter : writes x.phase = true ↔ mutex = .write c)
    (hother : ∀ d, d ≠ c → (mutex = .write d ↔ s.registryMutex = .write d))
    (hreader : mutex = .read ↔ s.registryMutex = .read)
    (hentry : ∀ traderId d, registry traderId = some d →
      (d = c ∧ traderId ∈ x.localSessionTraders ∧ Keeps traderId x.phase) ∨
        (d ≠ c ∧ s.clientRegistry traderId = some d))
    (hclosed : x.chClosed = true → s.registryMutex ≠ .read ∨ (s.sessions c).chClosed = true) :
    Inv { s.set c x with clientRegistry := registry, registryMutex := mutex, registered := registered } where
  writer := by
    intro d
    by_cases hd : d = c
    · subst hd
      simpa [State.set] using hwriter
    · simpa [State.set, Function.update_of_ne hd] using (h.writer d).trans (hother d hd).symm
  reader := h.reader.trans hreader.symm
  session := by
    intro d
    by_cases hd : d = c
    · subst hd
      simpa [State.set] using hx
    · simpa [State.set, Function.update_of_ne hd] using h.session d
  entry := by
    intro traderId d he
    rcases hentry traderId d he with ⟨rfl, hk⟩ | ⟨hd, he⟩
    · simpa [State.set] using hk
    · simpa [State.set, Function.update_of_ne hd] using h.entry traderId d he
  found := by
    intro packet d hd
    have hopen := h.found packet d hd
    by_cases hdc : d = c
    · subst hdc
      cases hc : x.chClosed with
      | false => simpa [State.set] using hc
      | true =>
          have hread : s.registryMutex = .read := by
            rw [← h.reader]
            rcases hd with hd | hd <;> rw [show s.egress = _ from hd] <;> rfl
          rcases hclosed hc with hno | hold
          · exact absurd hread hno
          · exact absurd (hold.symm.trans hopen) (by simp)
    · simpa [State.set, Function.update_of_ne hdc] using hopen
  panicked := h.panicked

theorem Inv.set (h : Inv s) {x : Session} (hx : Sound x) (hw : writes x.phase = writes (s.sessions c).phase)
    (hsub : ∀ traderId, traderId ∈ (s.sessions c).localSessionTraders → Keeps traderId (s.sessions c).phase →
      traderId ∈ x.localSessionTraders ∧ Keeps traderId x.phase)
    (hclosed : x.chClosed = (s.sessions c).chClosed) : Inv (s.set c x) := by
  refine h.update hx (hw ▸ h.writer c) (fun _ _ => .rfl) .rfl (fun traderId d he => ?_) (fun hc => .inr (hclosed ▸ hc))
  by_cases hd : d = c
  · subst hd
    obtain ⟨hmem, hk⟩ := h.entry traderId d he
    exact .inl ⟨rfl, hsub traderId hmem hk⟩
  · exact .inr ⟨hd, he⟩

theorem Sound.open_of {x : Session} (h : Sound x) (hc : x.phase ≠ .closed) (hd : x.phase ≠ .done) :
    x.chClosed = false := by
  cases hx : x.chClosed with
  | false => rfl
  | true => exact ((h.closed hx).elim hc hd).elim

theorem Sound.moveTo {x : Session} {phase : Phase} (hopen : x.chClosed = false)
    (hrec : ∀ packet, phase = .recorded packet ∨ phase = .locked packet → packet.traderId ∈ x.localSessionTraders) :
    Sound (x.moveTo phase) :=
  ⟨fun hc => absurd (hopen.symm.trans hc) (by simp), hrec⟩

theorem Inv.acquire (h : Inv s) (hfree : s.registryMutex = .free) {phase : Phase} (hw : writes phase = true)
    (hx : Sound ((s.sessions c).moveTo phase))
    (hkeep : ∀ traderId, traderId ∈ (s.sessions c).localSessionTraders → Keeps traderId phase) :
    Inv { s.move c phase with registryMutex := .write c } := by
  refine h.update hx ?_ ?_ ?_ (fun traderId d he => ?_) fun _ => .inl ?_
  · simpa [Session.moveTo] using hw
  · intro d hd
    simp [hfree, Ne.symm hd]
  · simp [hfree]
  · by_cases hd : d = c
    · subst hd
      obtain ⟨hmem, -⟩ := h.entry traderId d he
      exact .inl ⟨rfl, hmem, hkeep traderId hmem⟩
    · exact .inr ⟨hd, he⟩
  · simp [hfree]

theorem Inv.unlock (h : Inv s) (hheld : s.registryMutex = .write c) {phase : Phase} (hw : writes phase = false)
    (hx : Sound ((s.sessions c).moveTo phase))
    (hkeep : ∀ traderId, Keeps traderId (s.sessions c).phase → Keeps traderId phase) :
    Inv { s.move c phase with registryMutex := .free } := by
  refine h.update hx ?_ ?_ ?_ (fun traderId d he => ?_) fun _ => .inl ?_
  · simp [Session.moveTo, hw]
  · intro d hd
    simp [hheld, Ne.symm hd]
  · simp [hheld]
  · by_cases hd : d = c
    · subst hd
      obtain ⟨hmem, hk⟩ := h.entry traderId d he
      exact .inl ⟨rfl, hmem, hkeep traderId hk⟩
    · exact .inr ⟨hd, he⟩
  · simp [hheld]

theorem record_inv {packet : IngressPacket} (h : Inv s) (he : (s.sessions c).phase = .parsed packet) :
    Inv (s.set c ((s.sessions c).record packet)) := by
  have hopen := (h.session c).open_of (by simp [he]) (by simp [he])
  refine h.set ⟨fun hc => absurd (hopen.symm.trans hc) (by simp), ?_⟩ (by rw [he]; rfl)
    (fun traderId ht _ => ⟨List.mem_cons_of_mem _ ht, trivial⟩) rfl
  intro x hx
  simp only [Session.record, Phase.recorded.injEq, reduceCtorEq, or_false] at hx ⊢
  rw [hx]
  exact List.mem_cons_self

theorem register_inv {packet : IngressPacket} {registered : UInt32 → Option Nat} (h : Inv s)
    (he : (s.sessions c).phase = .locked packet) :
    Inv { s.move c (.bound packet) with
      clientRegistry := Function.update s.clientRegistry packet.traderId (some c), registered := registered } := by
  have hopen := (h.session c).open_of (by simp [he]) (by simp [he])
  have hheld := (h.writer c).mp (by rw [he]; rfl)
  refine h.update (.moveTo hopen (by simp)) ?_ (fun _ _ => .rfl) .rfl (fun traderId d hd => ?_) fun _ => .inl ?_
  · exact iff_of_true rfl hheld
  · by_cases ht : traderId = packet.traderId
    · subst ht
      rw [Function.update_self] at hd
      exact .inl ⟨(Option.some.inj hd).symm, (h.session c).recorded packet (.inr he), trivial⟩
    · rw [Function.update_of_ne ht] at hd
      by_cases hdc : d = c
      · subst hdc
        exact .inl ⟨rfl, (h.entry traderId d hd).1, trivial⟩
      · exact .inr ⟨hdc, hd⟩
  · simp [hheld]

theorem delete_inv {traderId : UInt32} {rest : List UInt32} (h : Inv s)
    (he : (s.sessions c).phase = .clearing (traderId :: rest)) :
    Inv { s.move c (.clearing rest) with clientRegistry := Function.update s.clientRegistry traderId none } := by
  have hopen := (h.session c).open_of (by simp [he]) (by simp [he])
  have hheld := (h.writer c).mp (by rw [he]; rfl)
  refine h.update (.moveTo hopen (by simp)) ?_ (fun _ _ => .rfl) .rfl (fun t d hd => ?_) fun _ => .inl ?_
  · exact iff_of_true rfl hheld
  · by_cases ht : t = traderId
    · subst ht
      rw [Function.update_self] at hd
      simp at hd
    · rw [Function.update_of_ne ht] at hd
      by_cases hdc : d = c
      · subst hdc
        obtain ⟨hmem, hk⟩ := h.entry t d hd
        rw [he] at hk
        exact .inl ⟨rfl, hmem, (List.mem_cons.mp hk).resolve_left ht⟩
      · exact .inr ⟨hdc, hd⟩
  · simp [hheld]

theorem close_inv (h : Inv s) (he : (s.sessions c).phase = .clearing []) : Inv (s.set c (s.sessions c).close) := by
  have hheld := (h.writer c).mp (by rw [he]; rfl)
  refine h.update ⟨fun _ => .inl rfl, by simp [Session.close]⟩ ?_ (fun _ _ => .rfl) .rfl (fun t d hd => ?_)
    fun _ => .inl ?_
  · exact iff_of_true rfl hheld
  · by_cases hdc : d = c
    · subst hdc
      obtain ⟨-, hk⟩ := h.entry t d hd
      rw [he] at hk
      simp [Keeps] at hk
    · exact .inr ⟨hdc, hd⟩
  · simp [hheld]

theorem Inv.frame (h : Inv s) (hsess : s'.sessions = s.sessions) (hreg : s'.clientRegistry = s.clientRegistry)
    (hmutex : s'.registryMutex = s.registryMutex) (hpan : s'.panicked = s.panicked)
    (hreads : reads s'.egress = reads s.egress)
    (hfound : ∀ packet c, s'.egress = .taker packet c ∨ s'.egress = .maker packet c →
      (s.sessions c).chClosed = false) : Inv s' := by
  refine ⟨?_, ?_, ?_, ?_, ?_, hpan.trans h.panicked⟩
  · rw [hsess, hmutex]
    exact h.writer
  · rw [hreads, hmutex]
    exact h.reader
  · rw [hsess]
    exact h.session
  · rw [hsess, hreg]
    exact h.entry
  · rw [hsess]
    exact hfound

theorem send_inv (h : Inv s) {payload : EgressPacket} {next : Egress} (hopen : (s.sessions c).chClosed = false)
    (hreads : reads next = reads s.egress) (hnext : ∀ packet d, next ≠ .taker packet d ∧ next ≠ .maker packet d) :
    Inv (s.send c payload next) := by
  rw [State.send, hopen, if_neg Bool.false_ne_true]
  have hset : Inv (s.set c ((s.sessions c).offer payload)) :=
    h.set ⟨(h.session c).closed, (h.session c).recorded⟩ rfl (fun traderId ht hk => ⟨ht, hk⟩) rfl
  refine hset.frame rfl rfl rfl rfl hreads fun packet d hd => ?_
  exact (hd.elim (hnext packet d).1 (hnext packet d).2).elim

theorem Inv.move (h : Inv s) {phase : Phase} (hc : (s.sessions c).phase ≠ .closed)
    (hd : (s.sessions c).phase ≠ .done) (hw : writes phase = writes (s.sessions c).phase)
    (hrec : ∀ packet, phase ≠ .recorded packet ∧ phase ≠ .locked packet) (hk : ∀ traderId, Keeps traderId phase) :
    Inv (s.move c phase) := by
  have hopen := (h.session c).open_of hc hd
  exact h.set (.moveTo hopen fun packet hp => (hp.elim (hrec packet).1 (hrec packet).2).elim) hw
    (fun traderId ht _ => ⟨ht, hk traderId⟩) rfl

theorem step_inv (h : Inv s) (hs : step s a = some s') : Inv s' := by
  cases steps_of_step hs with
  | skip => exact h
  | @accept c _ packet he =>
      have hopen := (h.session c).open_of (by simp [he]) (by simp [he])
      exact h.set ⟨fun hc => absurd (hopen.symm.trans hc) (by simp), by simp [Session.accept]⟩ (by rw [he]; rfl)
        (fun traderId ht _ => ⟨ht, trivial⟩) rfl
  | known he | disconnect he =>
      exact h.move (by simp [he]) (by simp [he]) (by rw [he]; rfl) (by simp) fun _ => trivial
  | @send c packet he =>
      have hmove : Inv (s.move c .reading) :=
        h.move (by simp [he]) (by simp [he]) (by rw [he]; rfl) (by simp) fun _ => trivial
      exact ⟨hmove.writer, hmove.reader, hmove.session, hmove.entry, hmove.found, hmove.panicked⟩
  | record he => exact record_inv h he
  | @lock c packet he hfree =>
      have hopen := (h.session c).open_of (by simp [he]) (by simp [he])
      refine h.acquire hfree rfl (.moveTo hopen fun x hx => ?_) fun _ _ => trivial
      simp only [reduceCtorEq, Phase.locked.injEq, false_or] at hx
      exact hx ▸ (h.session c).recorded packet (.inl he)
  | register he => exact register_inv h he
  | @unlock c packet he =>
      have hopen := (h.session c).open_of (by simp [he]) (by simp [he])
      exact h.unlock ((h.writer c).mp (by rw [he]; rfl)) rfl (.moveTo hopen (by simp)) fun _ _ => trivial
  | delete he => exact delete_inv h he
  | close he => exact close_inv h he
  | @finish c he =>
      refine h.unlock ((h.writer c).mp (by rw [he]; rfl)) rfl ⟨fun _ => .inr rfl, by simp [Session.moveTo]⟩
        fun t hk => ?_
      rw [he] at hk
      exact hk
  | @cleanup c order he hfree hperm =>
      have hopen := (h.session c).open_of (by simp [he]) (by simp [he])
      exact h.acquire hfree rfl (.moveTo hopen (by simp)) fun traderId ht => hperm.mem_iff.mpr ht
  | @write c =>
      exact h.set ⟨(h.session c).closed, (h.session c).recorded⟩ rfl (fun traderId ht hk => ⟨ht, hk⟩) rfl
  | receive | call | access | result | core => exact h.frame rfl rfl rfl rfl rfl h.found
  | dequeue he => exact h.frame rfl rfl rfl rfl (by rw [he]; rfl) (by simp)
  | readLock he hfree =>
      refine ⟨fun c => ?_, by simp [reads], h.session, h.entry, by simp, h.panicked⟩
      simpa [hfree] using h.writer c
  | findTaker he hc =>
      refine h.frame rfl rfl rfl rfl (by rw [he]; rfl) fun x d hd => ?_
      simp only [Egress.taker.injEq, reduceCtorEq, or_false] at hd
      exact hd.2 ▸ h.entry_open hc
  | noTaker he | noMaker he => exact h.frame rfl rfl rfl rfl (by rw [he]; rfl) (by simp)
  | sendTaker he => exact send_inv h (h.found _ _ (.inl he)) (by rw [he]; rfl) (by simp)
  | findMaker he hc =>
      refine h.frame rfl rfl rfl rfl (by rw [he]; rfl) fun x d hd => ?_
      simp only [reduceCtorEq, Egress.maker.injEq, false_or] at hd
      exact hd.2 ▸ h.entry_open hc
  | sendMaker he => exact send_inv h (h.found _ _ (.inr he)) (by rw [he]; rfl) (by simp)
  | readUnlock he =>
      have hread : s.registryMutex = .read := h.reader.mp (by rw [he]; rfl)
      refine ⟨fun c => ?_, by simp [reads], h.session, h.entry, by simp, h.panicked⟩
      simpa [hread] using h.writer c

/-- The registry never leads to a closed channel, and the gateway never panics
on a send. -/
theorem registry_entries_open {buf : Nat → IngressPacket} {base : BitVec 64} {actions : List Gateway.Action}
    (hr : Runs.run step (init buf base) actions = some s) :
    (∀ traderId c, s.clientRegistry traderId = some c →
        (s.sessions c).chClosed = false ∧ traderId ∈ (s.sessions c).localSessionTraders) ∧
      (∀ packet c, s.egress = .taker packet c ∨ s.egress = .maker packet c → (s.sessions c).chClosed = false) ∧
      s.panicked = false := by
  have h : Inv s := Runs.run_invariant (fun _ _ _ => step_inv) (init_inv buf base) hr
  exact ⟨fun traderId c he => ⟨h.entry_open he, (h.entry traderId c he).1⟩, h.found, h.panicked⟩

def answer : EgressPacket := fillPacket ⟨0, 1, 7, 9⟩ ⟨7, 7, 100, 5⟩

def shortSession : List Gateway.Action :=
  [.line 0 sellLine, .session 0, .session 0, .session 0, .session 0, .session 0,
    .dequeue answer, .egress, .egress, .egress, .egress, .egress, .egress,
    .disconnect 0, .cleanup 0 [7], .session 0, .session 0, .session 0,
    .dequeue answer, .egress, .egress]

theorem registry_entries_open_disconnect :
    ∃ s, Runs.run step (init (fun _ => .zero) 0) shortSession = some s ∧ (s.sessions 0).ch = [answer, answer] ∧
      (s.sessions 0).chClosed = true ∧ s.clientRegistry 7 = none ∧ s.panicked = false := by
  have hrun : (Runs.run step (init (fun _ => .zero) 0) shortSession).map
      (fun s => ((s.sessions 0).ch, (s.sessions 0).chClosed, s.clientRegistry 7)) =
      some ([answer, answer], true, none) := by decide +kernel
  obtain ⟨s, hr, hs⟩ := Option.map_eq_some_iff.mp hrun
  simp only [Prod.mk.injEq] at hs
  exact ⟨s, hr, hs.1, hs.2.1, hs.2.2, (registry_entries_open hr).2.2⟩

section Registration

/-- The cleanup of a session is about to delete the entry of another one that
is still connected. -/
def Removes (s : State) (a : Gateway.Action) : Prop :=
  ∃ c traderId rest d, a = .session c ∧ (s.sessions c).phase = .clearing (traderId :: rest) ∧
    s.clientRegistry traderId = some d ∧ d ≠ c ∧ connected (s.sessions d).phase = true

def deletion (s : State) : Gateway.Action → Option (Nat × Nat)
  | .session c =>
      match (s.sessions c).phase with
      | .clearing (traderId :: _) => (s.clientRegistry traderId).map fun d => (c, d)
      | _ => none
  | _ => none

theorem removes_iff {s : State} {a : Gateway.Action} :
    (∃ x ∈ deletion s a, x.2 ≠ x.1 ∧ connected (s.sessions x.2).phase = true) ↔ Removes s a := by
  constructor
  · rintro ⟨⟨c, d⟩, hx, hne, hconn⟩
    cases a with
    | session e =>
        simp only [deletion] at hx
        split at hx
        next traderId rest he =>
          obtain ⟨f, hf, hfd⟩ := Option.map_eq_some_iff.mp hx
          obtain ⟨rfl, rfl⟩ := Prod.mk.inj hfd
          exact ⟨e, traderId, rest, f, rfl, he, hf, hne, hconn⟩
        next => simp at hx
    | line | disconnect | cleanup | write | receive | enqueue | core | dequeue | egress => simp [deletion] at hx
  · rintro ⟨c, traderId, rest, d, rfl, he, hd, hne, hconn⟩
    refine ⟨(c, d), ?_, hne, hconn⟩
    simp [deletion, he, hd]

instance (s : State) (a : Gateway.Action) : Decidable (Removes s a) := decidable_of_iff _ removes_iff

def Registered (s : State) : Prop :=
  ∀ traderId c, s.registered traderId = some c → connected (s.sessions c).phase = true →
    s.clientRegistry traderId = some c

structure Kept (s : State) : Prop where
  last : ∀ traderId c, s.clientRegistry traderId = some c → s.registered traderId = some c
  kept : Registered s

theorem Kept.frame (h : Kept s) (hreg : s'.clientRegistry = s.clientRegistry) (hlast : s'.registered = s.registered)
    (hconn : ∀ c, connected (s'.sessions c).phase = true → connected (s.sessions c).phase = true) : Kept s' := by
  refine ⟨?_, fun traderId c hc hp => ?_⟩
  · rw [hreg, hlast]
    exact h.last
  · rw [hlast] at hc
    rw [hreg]
    exact h.kept traderId c hc (hconn c hp)

theorem set_connected {x : Session} (hx : connected x.phase = true → connected (s.sessions c).phase = true) (d : Nat)
    (hd : connected ((s.set c x).sessions d).phase = true) : connected (s.sessions d).phase = true := by
  by_cases hdc : d = c
  · subst hdc
    exact hx (by simpa [State.set] using hd)
  · simpa [State.set, Function.update_of_ne hdc] using hd

theorem register_kept {packet : IngressPacket} (h : Kept s) (he : (s.sessions c).phase = .locked packet) :
    Kept { s.move c (.bound packet) with
      clientRegistry := Function.update s.clientRegistry packet.traderId (some c)
      registered := Function.update s.registered packet.traderId (some c) } := by
  have hconn := set_connected (s := s) (c := c) (x := (s.sessions c).moveTo (.bound packet)) fun _ => by rw [he]; rfl
  refine ⟨fun traderId d hd => ?_, fun traderId d hd hp => ?_⟩
  · by_cases ht : traderId = packet.traderId
    · subst ht
      simpa using hd
    · simp only [Function.update_of_ne ht] at hd ⊢
      exact h.last traderId d hd
  · by_cases ht : traderId = packet.traderId
    · subst ht
      simpa using hd
    · simp only [Function.update_of_ne ht] at hd ⊢
      exact h.kept traderId d hd (hconn d hp)

theorem delete_kept {traderId : UInt32} {rest : List UInt32} (h : Kept s) (hno : ¬ Removes s (.session c))
    (he : (s.sessions c).phase = .clearing (traderId :: rest)) :
    Kept { s.move c (.clearing rest) with clientRegistry := Function.update s.clientRegistry traderId none } := by
  have hconn := set_connected (s := s) (c := c) (x := (s.sessions c).moveTo (.clearing rest))
    (by simp [Session.moveTo, connected])
  refine ⟨fun t d hd => ?_, fun t d hd hp => ?_⟩
  · by_cases ht : t = traderId
    · subst ht
      simp at hd
    · simp only [Function.update_of_ne ht] at hd
      exact h.last t d hd
  · have hp' := hconn d hp
    have hentry := h.kept t d hd hp'
    by_cases ht : t = traderId
    · -- Only the entry of the session itself is removed, and it is not connected.
      subst ht
      have hdc : d = c := Classical.not_not.mp fun hdc => hno ⟨c, t, rest, d, rfl, he, hentry, hdc, hp'⟩
      rw [hdc, he] at hp'
      simp [connected] at hp'
    · simpa only [Function.update_of_ne ht] using hentry

theorem send_kept (h : Kept s) (c : Nat) (payload : EgressPacket) (next : Egress) : Kept (s.send c payload next) := by
  rw [State.send]
  split
  · exact h.frame rfl rfl fun _ => id
  · exact h.frame rfl rfl (set_connected id)

theorem step_kept (h : Kept s) (hno : ¬ Removes s a) (hs : step s a = some s') : Kept s' := by
  cases steps_of_step hs with
  | skip => exact h
  | accept he | known he | record he | lock he | unlock he | send he | disconnect he =>
      exact h.frame rfl rfl (set_connected fun _ => by rw [he]; rfl)
  | register he => exact register_kept h he
  | delete he => exact delete_kept h hno he
  | close => exact h.frame rfl rfl (set_connected (by simp [Session.close, connected]))
  | finish | cleanup => exact h.frame rfl rfl (set_connected (by simp [Session.moveTo, connected]))
  | write => exact h.frame rfl rfl (set_connected id)
  | sendTaker | sendMaker => exact send_kept h ..
  | receive | call | access | result | core | dequeue | readLock | findTaker | noTaker | findMaker | noMaker
  | readUnlock => exact h.frame rfl rfl fun _ => id

theorem not_registered_of_removes (h : Kept s) (hr : Removes s a) (hs : step s a = some s') : ¬ Registered s' := by
  obtain ⟨c, traderId, rest, d, rfl, he, hd, hdc, hconn⟩ := hr
  have hs := advance_of_step hs
  simp only [advance, sessionStep, he] at hs
  obtain rfl := Option.some.inj hs
  intro hreg
  have hconn' : connected ((s.move c (.clearing rest)).sessions d).phase = true := by
    simpa [State.move, State.set, Function.update_of_ne hdc] using hconn
  have hentry := hreg traderId d (h.last traderId d hd) hconn'
  simp at hentry

/-- Connected sessions keep their ids in every state of a run exactly if no
cleanup deletes the entry of another connected session. -/
theorem registrations_kept_iff {buf : Nat → IngressPacket} {base : BitVec 64} {actions : List Gateway.Action}
    (hr : Runs.run step (init buf base) actions = some s) :
    (∀ before after t, actions = before ++ after → Runs.run step (init buf base) before = some t →
        ∀ traderId c, t.registered traderId = some c → connected (t.sessions c).phase = true →
          t.clientRegistry traderId = some c) ↔
      Runs.Along step (fun s a => ¬ Removes s a) (init buf base) actions := by
  have hinit : Kept (init buf base) := ⟨by simp [init], by simp [Registered, init]⟩
  exact Runs.always_iff_along (fun _ h => h.kept) (fun _ _ _ _ => step_kept)
    (fun _ _ _ _ => not_registered_of_removes) hinit hr

theorem registrations_kept_iff_single :
    ∃ s, Runs.run step (init (fun _ => .zero) 0) shortSession = some s ∧
      ∀ before after t, shortSession = before ++ after →
        Runs.run step (init (fun _ => .zero) 0) before = some t →
        ∀ traderId c, t.registered traderId = some c → connected (t.sessions c).phase = true →
          t.clientRegistry traderId = some c := by
  have hrun : (Runs.run step (init (fun _ => .zero) 0) shortSession).isSome := by decide +kernel
  have hno : Runs.Along step (fun s a => ¬ Removes s a) (init (fun _ => .zero) 0) shortSession := by decide +kernel
  obtain ⟨s, hr⟩ := Option.isSome_iff_exists.mp hrun
  exact ⟨s, hr, (registrations_kept_iff hr).mpr hno⟩

def takeover : List Gateway.Action :=
  [.line 0 sellLine, .session 0, .session 0, .session 0, .session 0, .session 0,
    .line 1 sellLine, .session 1, .session 1, .session 1, .session 1, .session 1,
    .disconnect 0, .cleanup 0 [7], .session 0, .session 0, .session 0]

/-- The cleanup of the first session deletes the binding of the second one,
which is still connected and was the last to register the id. -/
theorem disconnect_removes_registration :
    ∃ s, Runs.run step (init (fun _ => .zero) 0) takeover = some s ∧ s.registryMutex = .free ∧
      s.registered 7 = some 1 ∧ connected (s.sessions 1).phase = true ∧ s.clientRegistry 7 = none := by
  have hrun : (Runs.run step (init (fun _ => .zero) 0) takeover).map
      (fun s => (s.registryMutex, s.registered 7, connected (s.sessions 1).phase, s.clientRegistry 7)) =
      some (.free, some 1, true, none) := by decide +kernel
  obtain ⟨s, hr, hs⟩ := Option.map_eq_some_iff.mp hrun
  simp only [Prod.mk.injEq] at hs
  exact ⟨s, hr, hs.1, hs.2.1, hs.2.2.1, hs.2.2.2⟩

end Registration

end Sequitur.ClientRegistry
