import GolangSandbox.Program.ReceiveLoops
import GolangSandbox.Interface.Conversation
import GolangSandbox.Analysis.RegistryInvariant

/-!
# The end of the receive loops

Both loops call `Read`, act on the command and stop at `io.EOF` only. A loop of this kind
(`Pumps`) does with its unread bytes what its action does with the commands in them
(`Pumps.round_spec`), and the round that reads no command any more empties the reader: if
the error behind the stream is `io.EOF`, the loop ends there, and otherwise it reads the
same error for ever, with the client still in `s.clients` and its connection open.
-/

set_option autoImplicit false

namespace GolangSandbox.Analysis

open GolangSandbox.Model GolangSandbox.Program GolangSandbox.Interface
open GolangSandbox.Program.ChatRoom (handle receive)
open GolangSandbox.Program.CommandWiter (write)

/-! ## Loops over a reader -/

section Pumps

variable {σ τ : Type}

/-- A round of the loop calls `Read` once, acts on the command if there is one, and breaks
at the end of the stream. -/
structure Pumps (round : σ → σ × Bool) (reader : σ → CommandReader) (state : σ → τ)
    (act : τ → Command → τ) : Prop where
  reads : ∀ x, reader (round x).1 = (CommandReader.read (reader x)).2.2
  acts : ∀ x, state (round x).1 = (CommandReader.read (reader x)).1.elim (state x) (act (state x))
  breaks : ∀ x, (round x).2 = decide ((CommandReader.read (reader x)).2.1 = some (.fault .eof))

variable {round : σ → σ × Bool} {reader : σ → CommandReader} {state : σ → τ}
variable {act : τ → Command → τ} {s : σ}

/-- What the loop has done and what the unread bytes still make it do. -/
def outcome (reader : σ → CommandReader) (state : σ → τ) (act : τ → Command → τ) (x : σ) : τ :=
  (decode (reader x).data).foldl act (state x)

/-- **A round keeps the outcome.** Afterwards the reader has fewer bytes, or it has none and
the loop breaks if it has met the end. -/
theorem Pumps.round_spec (h : Pumps round reader state act) (x : σ) :
    (reader (round x).1).fault = (reader x).fault ∧
      outcome reader state act (round x).1 = outcome reader state act x ∧
      ((round x).2 = false ∧ (reader (round x).1).data.length < (reader x).data.length ∨
        (round x).2 = decide ((reader x).fault = .eof) ∧ (reader (round x).1).data = []) := by
  unfold outcome
  rw [h.reads, h.acts, h.breaks]
  generalize reader x = r
  obtain ⟨bytes, e⟩ := r
  cases shape bytes with
  | @command cmd rest hcmd =>
    have hpos := length_write_pos cmd
    rw [read_write rest e hcmd, decode_write hcmd]
    refine ⟨rfl, rfl, .inl ⟨rfl, ?_⟩⟩
    simp only [List.length_append]
    omega
  | @unknown tok rest htok hkey =>
    rw [read_unknown rest e htok hkey, decode_unknown htok hkey]
    refine ⟨rfl, rfl, .inl ⟨rfl, ?_⟩⟩
    simp only [List.length_append, List.length_cons]
    omega
  | truncated hs =>
    rw [read_truncated e hs, decode_truncated hs, decode_nil]
    exact ⟨rfl, rfl, .inr ⟨by simp, rfl⟩⟩

/-- **At the end of the stream the loop has done what it had to**, with one call of `Read`
more than there are bytes. -/
theorem Pumps.ends (h : Pumps round reader state act) (heof : (reader s).fault = .eof) :
    ∃ t, breakLoop round ((reader s).data.length + 1) s = some t ∧
      state t = outcome reader state act s := by
  have hfinal : ∀ x, (reader x).fault = .eof ∧
      outcome reader state act x = outcome reader state act s → (round x).2 = true →
      state (round x).1 = outcome reader state act s := by
    rintro x ⟨-, hx⟩ hbreak
    obtain ⟨-, hkept, ⟨hgo, -⟩ | ⟨-, hempty⟩⟩ := h.round_spec x
    · rw [hbreak] at hgo
      cases hgo
    · rw [← hx, ← hkept, outcome, hempty, decode_nil, List.foldl_nil]
  have hround : ∀ x, (reader x).fault = .eof ∧
      outcome reader state act x = outcome reader state act s → (round x).2 = false →
      ((reader (round x).1).fault = .eof ∧
        outcome reader state act (round x).1 = outcome reader state act s) ∧
        (reader (round x).1).data.length < (reader x).data.length := by
    rintro x ⟨hx, ho⟩ hgo
    obtain ⟨hfault, hkept, ⟨-, hlt⟩ | ⟨hbreak, -⟩⟩ := h.round_spec x
    · exact ⟨⟨hfault.trans hx, hkept.trans ho⟩, hlt⟩
    · rw [hgo, hx] at hbreak
      cases hbreak
  exact breakLoop_ends (fun x => (reader x).data.length) hfinal hround ⟨heof, rfl⟩
    (Nat.lt_succ_self _)

/-- **Behind another error the loop does not end.** -/
theorem Pumps.endless (h : Pumps round reader state act) (heof : (reader s).fault ≠ .eof)
    (calls : ℕ) : breakLoop round calls s = none := by
  refine breakLoop_endless (I := fun x => (reader x).fault ≠ .eof) ?_ heof calls
  intro x hx
  obtain ⟨hfault, -, ⟨hgo, -⟩ | ⟨hgo, -⟩⟩ := h.round_spec x
  · exact ⟨hgo, hfault.symm ▸ hx⟩
  · exact ⟨by rw [hgo, decide_eq_false hx], hfault.symm ▸ hx⟩

end Pumps

/-! ## The two loops -/

/-- What `serve` does with a command: the name of the client and the broadcasts so far. -/
def serveAct (x : Bytes × List MessageCommand) (cmd : Command) : Bytes × List MessageCommand :=
  ((handle x.1 (some cmd)).1, x.2 ++ (handle x.1 (some cmd)).2.toList)

theorem service_pumps :
    Pumps Service.round Service.cmdReader (fun x => (x.name, x.broadcast)) serveAct where
  reads := fun _ => rfl
  acts := by
    intro x
    unfold Service.round
    cases CommandReader.read x.cmdReader with
    | mk cmd r =>
      cases cmd with
      | none => simp [handle]
      | some cmd => rfl
  breaks := fun _ => rfl

theorem foldl_serveAct (cs : List Command) (name : Bytes) (sent : List MessageCommand) :
    cs.foldl serveAct (name, sent) = (nameAfter name cs, sent ++ broadcasts name cs) := by
  induction cs generalizing name sent with
  | nil => simp [nameAfter, latestName, broadcasts]
  | cons cmd cs ih =>
    obtain ⟨hname, hcast⟩ := handle_spec name cmd
    have hnames : nameAfter name (cmd :: cs) = nameAfter (nameAfter name [cmd]) cs :=
      nameAfter_append name [cmd] cs
    have hcasts : broadcasts name (cmd :: cs) =
        broadcasts name [cmd] ++ broadcasts (nameAfter name [cmd]) cs :=
      broadcasts_append name [cmd] cs
    rw [List.foldl_cons, serveAct, ih, hname, hcast, hnames, hcasts, List.append_assoc]

/-- The `MESSAGE` commands of a stream. -/
def messages (s : Bytes) : List MessageCommand :=
  (decode s).filterMap fun
    | .message v => some v
    | _ => none

/-- The type switch of `Start` keeps the `MESSAGE` commands. -/
theorem foldl_receive (cs : List Command) (incoming : List MessageCommand) :
    cs.foldl (fun incoming cmd => incoming ++ receive (some cmd)) incoming =
      incoming ++ cs.filterMap fun
        | .message v => some v
        | _ => none := by
  induction cs generalizing incoming with
  | nil => exact (List.append_nil incoming).symm
  | cons cmd cs ih =>
    rw [List.foldl_cons, ih, List.append_assoc]
    cases cmd with
    | message v => rfl
    | send v => rfl
    | name v => rfl

theorem receipt_pumps : Pumps Receipt.round Receipt.cmdReader Receipt.incoming
    fun incoming cmd => incoming ++ receive (some cmd) where
  reads := by
    intro x
    unfold Receipt.round
    dsimp only
    split
    · rfl
    · rfl
  acts := by
    intro x
    unfold Receipt.round
    dsimp only
    split
    · rename_i heof
      rw [read_eq_none heof]
      rfl
    · cases (CommandReader.read x.cmdReader).1 with
      | none => exact List.append_nil _
      | some cmd => rfl
  breaks := by
    intro x
    unfold Receipt.round
    dsimp only
    split
    · rename_i heof
      rw [decide_eq_true heof]
    · rename_i hgo
      rw [decide_eq_false hgo]

/-! ## Leaving the loops -/

section Leaving

variable {e : Fault} (s : Bytes)

theorem serve_eof : ∃ x, breakLoop Service.round (s.length + 1) (.new ⟨s, .eof⟩) = some x ∧
    x.name = nameAfter [] (decode s) ∧ x.broadcast = broadcasts [] (decode s) := by
  obtain ⟨x, hx, hstate⟩ := service_pumps.ends (s := Service.new ⟨s, .eof⟩) rfl
  rw [outcome, Service.new, foldl_serveAct, List.nil_append, Prod.mk.injEq] at hstate
  exact ⟨x, hx, hstate⟩

theorem start_eof : ∃ x, Receipt.start ⟨s, .eof⟩ (s.length + 1) = some x ∧
    x.incoming = messages s := by
  obtain ⟨x, hx, hstate⟩ := receipt_pumps.ends (s := (⟨⟨s, .eof⟩, []⟩ : Receipt)) rfl
  refine ⟨x, hx, ?_⟩
  rw [hstate, outcome, foldl_receive, List.nil_append, messages]

/-- Behind another error `serve` reads for ever. -/
theorem serve_endless {μ : Type} (he : e ≠ .eof) (u : Switchboard μ) (client : ClientId)
    (calls : ℕ) : u.serve client ⟨s, e⟩ calls = none := by
  rw [Switchboard.serve, service_pumps.endless (s := Service.new ⟨s, e⟩) he, Option.bind_none]

theorem start_endless (he : e ≠ .eof) (calls : ℕ) : Receipt.start ⟨s, e⟩ calls = none :=
  receipt_pumps.endless (s := (⟨⟨s, e⟩, []⟩ : Receipt)) he calls

end Leaving

/-- **What the deferred `remove` does** to a client that is served. -/
theorem remove_closes {μ : Type} {u : Switchboard μ} (hu : RegistryInv u.server)
    {client : ClientId} (hen : u.server.Enabled (.remove client)) :
    ∃ t, u.remove client = some t ∧
      t.server.clients.contents t.server.arrays =
        (u.server.clients.contents u.server.arrays).erase (some client) ∧
      some client ∉ t.server.clients.contents t.server.arrays ∧
      t.closed = u.closed ++ [client] := by
  obtain ⟨j, hj⟩ := exists_registered hen
  obtain ⟨server, hserver, -, -, -, -, -, -, -, -, -, hcont⟩ := remove_spec hu hj
  obtain ⟨hlt, hget⟩ := List.getElem?_eq_some_iff.mp hj
  have herase : u.server.registered.eraseIdx j = u.server.registered.erase client := by
    rw [← hget, List.Nodup.erase_getElem hu.registered_nodup]
  rw [herase] at hcont
  refine ⟨⟨server, u.closed ++ [client]⟩, ?_, ?_, ?_, rfl⟩
  · rw [Switchboard.remove, hserver, Option.map_some]
  · rw [hcont, hu.contents, List.map_erase fun _ _ => Option.some.inj]
  · rw [hcont]
    intro hmem
    obtain ⟨c, hc, hcc⟩ := List.mem_map.mp hmem
    rw [Option.some.injEq] at hcc
    subst hcc
    exact hu.registered_nodup.not_mem_erase hc

/-! ## The condition -/

/-- `serve` reads at most once more than there are bytes before the error `e`, processes all
complete commands, and then removes the client and closes its connection, in every state of
the server that still has the client. -/
def ServeEnds (s : Bytes) (e : Fault) : Prop :=
  ∀ (as : List (TcpChatServer.Action MessageCommand)) (u : Switchboard MessageCommand)
    (client : ClientId), run TcpChatServer.step TcpChatServer.newServer as = some u.server →
    u.server.Enabled (.remove client) →
    ∃ x t, u.serve client ⟨s, e⟩ (s.length + 1) = some (x, t) ∧
      x.name = nameAfter [] (decode s) ∧ x.broadcast = broadcasts [] (decode s) ∧
      t.server.clients.contents t.server.arrays =
        (u.server.clients.contents u.server.arrays).erase (some client) ∧
      some client ∉ t.server.clients.contents t.server.arrays ∧
      t.closed = u.closed ++ [client]

/-- `Start` reads at most once more than there are bytes before the error `e` and sends all
complete messages on `incoming`. -/
def StartEnds (s : Bytes) (e : Fault) : Prop :=
  ∃ x, Receipt.start ⟨s, e⟩ (s.length + 1) = some x ∧ x.incoming = messages s

theorem serveEnds_eof (s : Bytes) : ServeEnds s .eof := by
  intro as u client hrun hen
  obtain ⟨x, hx, hname, hcast⟩ := serve_eof s
  obtain ⟨t, ht, hremove⟩ := remove_closes (registryInv_of_run hrun) hen
  refine ⟨x, t, ?_, hname, hcast, hremove⟩
  rw [Switchboard.serve, hx, Option.bind_some, ht, Option.map_some]

/-- A server with one client refutes it for every other error. -/
theorem not_serveEnds {e : Fault} (he : e ≠ .eof) (s : Bytes) : ¬ ServeEnds s e := by
  intro h
  obtain ⟨x, t, hserve, -⟩ := h [.accept 0 0] ⟨_, []⟩ 0 rfl (by decide)
  rw [serve_endless s he] at hserve
  cases hserve

theorem not_startEnds {e : Fault} (he : e ≠ .eof) (s : Bytes) : ¬ StartEnds s e := by
  rintro ⟨x, hstart, -⟩
  rw [start_endless s he] at hstart
  cases hstart

/-- **Each loop ends if and only if the error behind the stream is `io.EOF`.**
SOURCE: chatserver/server/tcp_server.go:101-129, chatserver/client/tcp_client.go:36-54 -/
theorem receive_loops_end_iff (s : Bytes) (e : Fault) :
    (ServeEnds s e ↔ e = .eof) ∧ (StartEnds s e ↔ e = .eof) := by
  refine ⟨⟨fun h => ?_, ?_⟩, fun h => ?_, ?_⟩
  · by_contra he
    exact not_serveEnds he s h
  · rintro rfl
    exact serveEnds_eof s
  · by_contra he
    exact not_startEnds he s h
  · rintro rfl
    exact start_eof s

/-- A receiver that closes its own connection behind one message: every later read returns
the error of a closed connection, and `Start` goes on reading. -/
theorem receive_loops_spin : ¬ StartEnds (write (.message ⟨[97], [104]⟩)) (.transport 9) :=
  not_startEnds (by decide) _

end GolangSandbox.Analysis
