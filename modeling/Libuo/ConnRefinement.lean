import Libuo.ConnPrograms

/-!
# What the functions of a connection come to

A connection whose functions are run one after the other does nothing but send and receive with its
handlers around. Functions that are left are the rest of an operation: before a send and before a
receive nothing has been done yet, and behind the bytes that have been received everything has.
-/

namespace Libuo.ConnPrograms
open TcpConn ConnCallbacks ConnSends ConnIndex ByteStreams
open ConnChains (Evt)
open HttpKeepAlive (afterSend)

variable {σ : Type}

/-- The same connection, but for the size of its receive buffer. -/
structure Alike (c c' : Conn) : Prop where
  content : c.rbuf.content = c'.rbuf.content
  valid : c.rbuf.Valid
  valid' : c'.rbuf.Valid
  rest : { c' with rbuf := c.rbuf } = c

def AlikeOwn (x y : Conn × σ) : Prop := Alike x.1 y.1 ∧ x.2 = y.2

/-- A handler does not depend on the size of the receive buffer. -/
def Respects (f : Effect σ) : Prop := ∀ {x y}, AlikeOwn x y → Option.Rel AlikeOwn (f x) (f y)

/-- Handlers leave the connection at the bottom of the stack, and those of a close leave what has
been received and what they keep. -/
structure Program.Lawful (P : Program σ) : Prop where
  respects : ∀ evt, ∀ f ∈ P.funcs evt, Respects f
  bottom : LeavesBottom P.handlers
  keeps : ∀ evt, evt = .beforeClose ∨ evt = .afterClose → ∀ f ∈ P.funcs evt, ∀ x,
    ∃ y, f x = some y ∧ y.1.rbuf.content = x.1.rbuf.content ∧ y.2 = x.2

variable {P : Program σ} {junk : ℕ → UInt8} {rbuf rbuf' : Buf} {c c' conn conn' : Conn}
  {own own' : σ} {x y : Conn × σ} {fs : List (Effect σ)} {f : Effect σ} {evt : Evt}
  {items : List Item} {rest : List Func} {e e' : Running σ} {t t' : Endpoint σ} {g : Func}
  {input : Input}

theorem Alike.state_eq (h : Alike c c') : c.state = c'.state := by
  rw [← h.rest]

theorem Alike.wbuf_eq (h : Alike c c') : c.wbuf = c'.wbuf := by
  rw [← h.rest]

theorem Alike.evtArg_eq (h : Alike c c') : c.evtArg = c'.evtArg := by
  rw [← h.rest]

theorem Alike.ptr_eq (h : Alike c c') : c.rbuf.ptr = c'.rbuf.ptr := by
  rw [← h.valid.length_content, ← h.valid'.length_content, h.content]

theorem Alike.setState (h : Alike c c') (state : State) :
    Alike { c with state } { c' with state } :=
  ⟨h.content, h.valid, h.valid', by rw [← h.rest]⟩

theorem Alike.setRbuf (h : Alike c c') (hcontent : rbuf.content = rbuf'.content)
    (hvalid : rbuf.Valid) (hvalid' : rbuf'.Valid) :
    Alike { c with rbuf } { c' with rbuf := rbuf' } :=
  ⟨hcontent, hvalid, hvalid', by rw [← h.rest]⟩

theorem Alike.setFlag (h : Alike c c') :
    Alike { c with evtArg.isMsgFullyReceived := true }
      { c' with evtArg.isMsgFullyReceived := true } :=
  ⟨h.content, h.valid, h.valid', by rw [← h.rest]⟩

theorem nextState_rbuf (c : Conn) (rbuf : Buf) (state : State) :
    { c with rbuf }.nextState state = { c.nextState state with rbuf } := by
  obtain ⟨rbuf', wbuf, evtArg, current⟩ := c
  cases current <;> rfl

theorem Alike.nextState (h : Alike c c') (state : State) :
    Alike (c.nextState state) (c'.nextState state) := by
  have hrest : c.nextState state = { c'.nextState state with rbuf := c.rbuf } := by
    rw [← nextState_rbuf, h.rest]
  refine ⟨?_, ?_, ?_, ?_⟩
  · rw [Conn.rbuf_nextState, Conn.rbuf_nextState]
    exact h.content
  · rw [Conn.rbuf_nextState]
    exact h.valid
  · rw [Conn.rbuf_nextState]
    exact h.valid'
  · rw [Conn.rbuf_nextState, hrest]

theorem Alike.afterSend (h : Alike c c') : Alike (afterSend c) (afterSend c') :=
  ⟨rfl, ⟨h.valid.size_pos, Nat.zero_le _⟩, ⟨h.valid'.size_pos, Nat.zero_le _⟩, by
    rw [← h.rest]
    rfl⟩

/-- A handler that does nothing with the receive buffer. -/
theorem respects_of_frame (hf : ∀ (c : Conn) (own : σ) (rbuf : Buf),
    f ({ c with rbuf }, own) = (f (c, own)).map fun x => ({ x.1 with rbuf }, x.2)) :
    Respects f := by
  rintro ⟨c, own⟩ ⟨c', _⟩ ⟨h, rfl⟩
  have heq := hf c' own c.rbuf
  rw [h.rest] at heq
  have hself := hf c' own c'.rbuf
  rw [heq]
  cases hx : f (c', own) with
  | none => exact .none
  | some x =>
    have hx' : some x = some ({ x.1 with rbuf := c'.rbuf }, x.2) := by
      rw [hx] at hself
      exact hself
    have hrbuf : x.1.rbuf = c'.rbuf := by rw [Option.some.inj hx']
    exact .some ⟨⟨h.content.trans (by rw [hrbuf]), h.valid, hrbuf ▸ h.valid', rfl⟩, rfl⟩

theorem runs_respects (hfs : ∀ f ∈ fs, Respects f) (h : AlikeOwn x y) :
    Option.Rel AlikeOwn (runs fs x) (runs fs y) := by
  induction fs generalizing x y with
  | nil => exact .some h
  | cons f fs ih =>
    rw [runs, runs, List.foldlM_cons, List.foldlM_cons]
    have hf := hfs f (by simp) h
    revert hf
    cases f x <;> cases f y <;> intro hf
    · exact .none
    · cases hf
    · cases hf
    · cases hf with
      | some h' => exact ih (fun f hf => hfs f (List.mem_cons_of_mem _ hf)) h'

/-- Handlers of an event that are yet to be run, and the functions behind them. -/
def pending (evt : Evt) (fs : List (Effect σ)) (rest : List Func) : List Func :=
  List.replicate fs.length (.handler evt) ++ rest

theorem effect_pending (hfs : f :: fs <:+ P.funcs evt) (hrest : .handler evt ∉ rest) :
    P.effect evt (pending evt fs rest) = some f := by
  obtain ⟨done, hdone⟩ := hfs
  have hcount : (pending evt fs rest).count (.handler evt) = fs.length := by
    rw [pending, List.count_append, List.count_replicate_self, List.count_eq_zero.mpr hrest,
      Nat.add_zero]
  have hindex : (P.funcs evt).length - (fs.length + 1) = done.length := by
    rw [← hdone, List.length_append, List.length_cons]
    omega
  rw [Program.effect, hcount, hindex, ← hdone, List.getElem?_append_right (Nat.le_refl _),
    Nat.sub_self]
  rfl

theorem act_handler (P : Program σ) (junk : ℕ → UInt8) (conn : Conn) (own : σ) (evt : Evt)
    (rest : List Func) (hbottom : items.head? = some .conn) :
    Running.act P junk ⟨⟨conn, ⟨items, .handler evt :: rest⟩⟩, own, none⟩ =
      (P.effect evt rest).bind fun f => (f (conn, own)).map fun x =>
        ⟨⟨x.1, ⟨items, rest⟩⟩, x.2, none⟩ := by
  simp only [Running.act, stackIndex0, hbottom, guard_true, Option.bind_eq_bind, Option.pure_def,
    Option.bind_some]
  cases P.effect evt rest with
  | none => rfl
  | some f =>
    rw [Option.bind_some, Option.bind_some]
    cases f (conn, own) <;> rfl

theorem act_plain (P : Program σ) (junk : ℕ → UInt8) (conn : Conn) (own : σ) (g : Func)
    (rest : List Func) (input : Input) (hbottom : items.head? = some .conn)
    (hg : plainInput g = some input) :
    Running.act P junk ⟨⟨conn, ⟨items, g :: rest⟩⟩, own, none⟩ =
      (step P.handlers junk ⟨conn, ⟨items, g :: rest⟩⟩ input).map fun machine =>
        ⟨machine, own, none⟩ := by
  cases g with
  | handler | executeIo | send => cases hg
  | advance | beforeRecv | recv | afterSend | close | afterClose =>
    simp only [Running.act, stackIndex0, hbottom, guard_true, Option.bind_eq_bind, Option.pure_def,
      Option.bind_some, hg, Option.map_eq_bind, Function.comp_def]

/-- The next handler is run. -/
theorem act_pending (P : Program σ) (junk : ℕ → UInt8) (conn : Conn) (own : σ) (rest : List Func)
    (hbottom : items.head? = some .conn) (hfs : f :: fs <:+ P.funcs evt)
    (hrest : .handler evt ∉ rest) :
    Running.act P junk ⟨⟨conn, ⟨items, pending evt (f :: fs) rest⟩⟩, own, none⟩ =
      (f (conn, own)).map fun x => ⟨⟨x.1, ⟨items, pending evt fs rest⟩⟩, x.2, none⟩ := by
  have h := act_handler P junk conn own evt (pending evt fs rest) hbottom
  rw [effect_pending hfs hrest, Option.bind_some] at h
  exact h

/-- What these results have done to a send of the content. -/
def Written (content : List UInt8) (results : List (Option ℕ)) (bytes : List UInt8) : Prop :=
  ∃ handed, ∀ more, sendLoop content (results ++ more) =
    (sendLoop bytes more).map fun r => (handed ++ r.1, r.2)

variable {content bytes : List UInt8} {results : List (Option ℕ)}

theorem written_nil (content : List UInt8) : Written content [] content :=
  ⟨[], fun more => by simp⟩

theorem Written.concat {c bytes' : List UInt8} (h : Written content results (c ++ bytes'))
    (hc : c ≠ []) : Written content (results ++ [some c.length]) bytes' := by
  obtain ⟨handed, hloop⟩ := h
  refine ⟨handed ++ c, fun more => ?_⟩
  obtain ⟨b, c, rfl⟩ := List.exists_cons_of_ne_nil hc
  have hne : ioWrite (some (b :: c).length) ≠ 0 := Nat.succ_ne_zero _
  have hle : ioWrite (some (b :: c).length) ≤ (b :: (c ++ bytes')).length := by
    simp [ioWrite]
  have hone : sendLoop (b :: (c ++ bytes')) (some (b :: c).length :: more) =
      (sendLoop bytes' more).map fun r => ((b :: c) ++ r.1, r.2) := by
    rw [sendLoop]
    simp only [if_neg hne, if_pos hle]
    simp [ioWrite]
  rw [List.append_assoc, hloop, List.singleton_append, List.cons_append, hone, Option.map_map]
  simp only [Function.comp_def, List.append_assoc]

theorem Written.all (h : Written content results []) :
    ∃ handed, sendLoop content results = some (handed, true) := by
  obtain ⟨handed, hloop⟩ := h
  have h := hloop []
  rw [List.append_nil] at h
  exact ⟨_, h⟩

/-- The functions of a close, or none. -/
inductive Last (P : Program σ) : List Func → Prop
  | ended : Last P []
  | closing {fs : List (Effect σ)} (hfs : fs <:+ P.funcs .beforeClose) :
    Last P (pending .beforeClose fs [.close])
  | closed {fs : List (Effect σ)} (hfs : fs <:+ P.funcs .afterClose) :
    Last P (pending .afterClose fs [.afterClose])

/-- What a connection with its callback comes to. -/
inductive Sim (P : Program σ) : Running σ → Endpoint σ → Prop
  | advancing {evt : Evt} {fs : List (Effect σ)} {items : List Item} {conn c : Conn} {own own' : σ}
    {x : Conn × σ} (hfs : fs <:+ P.funcs evt) (hbottom : items.head? = some .conn)
    (hruns : runs fs (conn, own) = some x) (halike : AlikeOwn x (c, own')) :
    Sim P ⟨⟨conn, ⟨items, pending evt fs [.advance]⟩⟩, own, none⟩ ⟨c, own', none⟩
  | beforeRecv {fs : List (Effect σ)} {items : List Item} {conn c : Conn} {own own' : σ}
    (hfs : fs <:+ P.funcs .beforeRecv) (hbottom : items.head? = some .conn)
    (hstate : c.state = .recv)
    (hruns : Option.Rel AlikeOwn (runs fs (conn, own))
      (runs (P.funcs .beforeRecv) ({ c with state := .none }, own'))) :
    Sim P ⟨⟨conn, ⟨items, pending .beforeRecv fs [.beforeRecv]⟩⟩, own, none⟩ ⟨c, own', none⟩
  | waiting {items : List Item} {len : ℕ} {conn c : Conn} {own own' : σ} {y : Conn × σ}
    (hbottom : items.head? = some .conn) (hstate : c.state = .recv) (hlen : 0 < len)
    (hroom : conn.rbuf.ptr + len ≤ conn.rbuf.getSize)
    (hruns : runs (P.funcs .beforeRecv) ({ c with state := .none }, own') = some y)
    (halike : AlikeOwn (conn, own) y) :
    Sim P ⟨⟨conn, ⟨items ++ [.epevt len], [.executeIo, .recv]⟩⟩, own, none⟩ ⟨c, own', none⟩
  | received {items : List Item} {n : ℕ} {conn c : Conn} {own own' : σ} {x : Conn × σ}
    (hbottom : items.head? = some .conn) (hn : n ≠ 0)
    (hruns : runs (P.funcs .afterRecv)
      ({ conn with rbuf := conn.rbuf.setPtrRel n, evtArg.lastRecvLen := n }, own) = some x)
    (halike : AlikeOwn x (c, own')) :
    Sim P ⟨⟨conn, ⟨items ++ [.value n], [.recv]⟩⟩, own, none⟩ ⟨c, own', none⟩
  | beforeSend {fs : List (Effect σ)} {items : List Item} {conn c : Conn} {own own' : σ}
    (hfs : fs <:+ P.funcs .beforeSend) (hbottom : items.head? = some .conn)
    (hstate : c.state = .send)
    (hruns : Option.Rel AlikeOwn (runs fs (conn, own))
      (runs (P.funcs .beforeSend) ({ c with state := .none }, own'))) :
    Sim P ⟨⟨conn, ⟨items, pending .beforeSend fs [.send]⟩⟩, own, none⟩ ⟨c, own', none⟩
  | sending {items : List Item} {conn c : Conn} {own own' : σ} {results : List (Option ℕ)}
    {bytes : List UInt8}
    (hbottom : items.head? = some .conn) (hwritten : Written conn.wbuf.content results bytes)
    (halike : AlikeOwn (conn, own) (c, own')) :
    Sim P ⟨⟨conn, ⟨items, [.send]⟩⟩, own, some (results, bytes)⟩ ⟨c, own', some bytes⟩
  | afterSend {fs : List (Effect σ)} {items : List Item} {conn c : Conn} {own own' : σ}
    (hfs : fs <:+ P.funcs .afterSend) (hbottom : items.head? = some .conn)
    (hruns : Option.Rel AlikeOwn (runs fs (conn, own)) (runs (P.funcs .afterSend) (c, own'))) :
    Sim P ⟨⟨conn, ⟨items, pending .afterSend fs [.afterSend, .advance]⟩⟩, own, none⟩
      ⟨c, own', some []⟩
  | idle {funcs : List Func} {items : List Item} {conn c : Conn} {own : σ}
    (hlast : Last P funcs) (hbottom : funcs ≠ [] → items.head? = some .conn)
    (hcontent : conn.rbuf.content = c.rbuf.content) (hstate : c.state ≠ .recv ∧ c.state ≠ .send) :
    Sim P ⟨⟨conn, ⟨items, funcs⟩⟩, own, none⟩ ⟨c, own, none⟩

/-- An endpoint waits for bytes. -/
def Endpoint.Ready (t : Endpoint σ) : Prop := t.unsent = none ∧ t.conn.state = .recv

theorem bottom_append (hP : P.Lawful) (evt : Evt) (hbottom : items.head? = some .conn) :
    (P.items evt ++ items).head? = some .conn := by
  rw [List.head?_append]
  cases h : (P.items evt).head? with
  | none => exact hbottom
  | some x => rw [hP.bottom evt x h, Option.some_or]

theorem runs_cons (f : Effect σ) (fs : List (Effect σ)) (x : Conn × σ) :
    runs (f :: fs) x = (f x).bind (runs fs) := by
  rw [runs, List.foldlM_cons]
  rfl

theorem suffix_tail (hfs : f :: fs <:+ P.funcs evt) : fs <:+ P.funcs evt :=
  (List.suffix_cons f fs).trans hfs

/-- The next operation. -/
theorem sim_advance (hP : P.Lawful) (hbottom : items.head? = some .conn)
    (h : AlikeOwn (conn, own) (c, own')) :
    Sim P ⟨advance P.handlers conn ⟨items, []⟩ none, own, none⟩ ⟨c, own', none⟩ := by
  have hstate : conn.state = c.state := h.1.state_eq
  obtain rfl : own = own' := h.2
  have hnone : AlikeOwn ({ conn with state := .none }, own) ({ c with state := .none }, own) :=
    ⟨h.1.setState .none, rfl⟩
  rw [advance]
  cases hs : conn.state with
  | recv =>
    exact .beforeRecv (List.suffix_refl _) (bottom_append hP _ hbottom) (hstate ▸ hs)
      (runs_respects (hP.respects _) hnone)
  | send =>
    exact .beforeSend (List.suffix_refl _) (bottom_append hP _ hbottom) (hstate ▸ hs)
      (runs_respects (hP.respects _) hnone)
  | close =>
    refine .idle (.closing (List.suffix_refl _)) (fun _ => bottom_append hP _ hbottom)
      h.1.content ?_
    rw [← hstate, hs]
    decide
  | none =>
    refine .idle .ended (fun hne => absurd rfl hne) h.1.content ?_
    rw [← hstate, hs]
    decide
  | idle =>
    refine .idle .ended (fun hne => absurd rfl hne) h.1.content ?_
    rw [← hstate, hs]
    decide

/-- A handler before an operation, or behind a send. -/
theorem sim_pending {z : Option (Conn × σ)} {rest : List Func} (hbottom : items.head? = some .conn)
    (hfs : f :: fs <:+ P.funcs evt) (hrest : .handler evt ∉ rest)
    (hruns : Option.Rel AlikeOwn (runs (f :: fs) (conn, own)) z)
    (hact : Running.act P junk ⟨⟨conn, ⟨items, pending evt (f :: fs) rest⟩⟩, own, none⟩ = some e') :
    ∃ x, e' = ⟨⟨x.1, ⟨items, pending evt fs rest⟩⟩, x.2, none⟩ ∧
      Option.Rel AlikeOwn (runs fs x) z := by
  rw [act_pending P junk conn own _ hbottom hfs hrest] at hact
  obtain ⟨x, hx, rfl⟩ := Option.map_eq_some_iff.mp hact
  rw [runs_cons, hx, Option.bind_some] at hruns
  exact ⟨x, rfl, hruns⟩

theorem rel_some {z : Option (Conn × σ)} (h : Option.Rel AlikeOwn (some x) z) :
    ∃ y, z = some y ∧ AlikeOwn x y := by
  cases h with
  | some h => exact ⟨_, rfl, h⟩

/-- Before the bytes are waited for. -/
theorem sim_waiting (hbottom : items.head? = some .conn) (hstate : c.state = .recv)
    (hruns : runs (P.funcs .beforeRecv) ({ c with state := .none }, own') = some y)
    (halike : AlikeOwn (conn, own) y) :
    Sim P ⟨beforeRecv junk conn ⟨items, []⟩ true, own, none⟩ ⟨c, own', none⟩ := by
  obtain ⟨rbuf, hrbuf⟩ : ∃ rbuf, rbuf = if conn.rbuf.getLenAfterPtr = 0 then
      conn.rbuf.realloc2x junk else conn.rbuf := ⟨_, rfl⟩
  obtain ⟨halike, hown⟩ : Alike conn y.1 ∧ own = y.2 := halike
  have hvalid := halike.valid
  have hle := hvalid.ptr_le
  have hroom : rbuf.Valid ∧ rbuf.content = conn.rbuf.content ∧ rbuf.ptr < rbuf.getSize := by
    rw [hrbuf]
    split
    · rename_i hfull
      rw [Buf.getLenAfterPtr] at hfull
      refine ⟨hvalid.realloc2x, Buf.content_realloc2x hle, ?_⟩
      have hpos := hvalid.size_pos
      rw [Buf.ptr_realloc2x, Buf.getSize_realloc2x]
      omega
    · rename_i hfree
      rw [Buf.getLenAfterPtr] at hfree
      exact ⟨hvalid, rfl, by omega⟩
  obtain ⟨hvalid', hcontent, hlt⟩ := hroom
  have hlen : rbuf.getLenAfterPtr.toNat = rbuf.getSize - rbuf.ptr := by
    rw [Buf.getLenAfterPtr]
    omega
  have hmachine : beforeRecv junk conn ⟨items, []⟩ true =
      ⟨{ conn with rbuf }, ⟨items ++ [.epevt (rbuf.getSize - rbuf.ptr)], [.executeIo, .recv]⟩⟩ := by
    have hne : rbuf.getSize - rbuf.ptr ≠ 0 := by omega
    rw [beforeRecv, ← hrbuf]
    simp only [hlen, readAsync, if_neg hne, if_true]
    rfl
  rw [hmachine]
  refine .waiting hbottom hstate (by omega) ?_ hruns ⟨?_, hown⟩
  · change rbuf.ptr + (rbuf.getSize - rbuf.ptr) ≤ rbuf.getSize
    omega
  · exact halike.setRbuf (hcontent.trans halike.content) hvalid' halike.valid'

theorem head_append (h : items.head? = some .conn) (item : Item) :
    (items ++ [item]).head? = some .conn := by
  rw [List.head?_append, h, Option.some_or]

/-- Behind the bytes that have been received. -/
theorem act_received (P : Program σ) (junk : ℕ → UInt8) (conn : Conn) (own : σ) {n : ℕ}
    (hbottom : items.head? = some .conn) (hn : n ≠ 0) :
    Running.act P junk ⟨⟨conn, ⟨items ++ [.value n], [.recv]⟩⟩, own, none⟩ =
      some ⟨⟨{ conn with rbuf := conn.rbuf.setPtrRel n, evtArg.lastRecvLen := n },
        ⟨P.items .afterRecv ++ items, pending .afterRecv (P.funcs .afterRecv) [.advance]⟩⟩, own,
          none⟩ := by
  have hconsume := consume_value ⟨items, []⟩ hn
  have hrecv : step P.handlers junk ⟨conn, ⟨items ++ [.value n], [.recv]⟩⟩ .none =
      recv P.handlers conn (stackPush ⟨items, []⟩ (.value n)) := rfl
  rw [act_plain P junk conn own .recv [] .none (head_append hbottom _) rfl, hrecv, recv,
    hconsume]
  simp only [Option.map_some, if_neg hn]
  rfl

/-- Nothing has been written. -/
theorem act_send (P : Program σ) (junk : ℕ → UInt8) (conn : Conn) (own : σ)
    (hbottom : items.head? = some .conn) :
    Running.act P junk ⟨⟨conn, ⟨items, [.send]⟩⟩, own, none⟩ =
      some ⟨⟨conn, ⟨items, [.send]⟩⟩, own, some ([], conn.wbuf.content)⟩ := by
  simp only [Running.act, stackIndex0, hbottom, guard_true, Option.bind_eq_bind, Option.pure_def,
    Option.bind_some]

/-- Everything has been written. -/
theorem act_sent (P : Program σ) (junk : ℕ → UInt8) (own : σ)
    (hwritten : Written conn.wbuf.content results []) :
    Running.act P junk ⟨⟨conn, ⟨items, [.send]⟩⟩, own, some (results, [])⟩ =
      some ⟨⟨conn, ⟨P.items .afterSend ++ items,
        pending .afterSend (P.funcs .afterSend) [.afterSend, .advance]⟩⟩, own, none⟩ := by
  obtain ⟨handed, hloop⟩ := hwritten.all
  have hsend : step P.handlers junk ⟨conn, ⟨items, [.send]⟩⟩ (.write results) =
      (send P.handlers conn ⟨items, []⟩ results).map fun r => r.2.2 := rfl
  have hfuncs : appendFunc (appendFunc (⟨items, []⟩ ++ P.handlers.cb .afterSend) .afterSend)
      .advance = ⟨P.items .afterSend ++ items,
        pending .afterSend (P.funcs .afterSend) [.afterSend, .advance]⟩ := by
    have hcb : (⟨items, []⟩ ++ P.handlers.cb .afterSend : Cb) = ⟨P.items .afterSend ++ items,
      List.replicate (P.funcs .afterSend).length (.handler .afterSend)⟩ := rfl
    rw [hcb, appendFunc, appendFunc, List.append_assoc]
    rfl
  rw [Running.act]
  simp only
  rw [hsend, send, hloop]
  simp only [Option.bind_some, if_true, hfuncs]
  rfl

/-- The handlers of a close, and the close itself. -/
theorem sim_idle (hP : P.Lawful) {funcs : List Func} (hlast : Last P funcs)
    (hbottom : items.head? = some .conn)
    (hcontent : conn.rbuf.content = c.rbuf.content) (hstate : c.state ≠ .recv ∧ c.state ≠ .send)
    (hne : funcs ≠ []) : ∃ e, Running.act P junk ⟨⟨conn, ⟨items, funcs⟩⟩, own, none⟩ = some e ∧
      Sim P e ⟨c, own, none⟩ := by
  cases hlast with
  | ended => exact absurd rfl hne
  | @closing fs hfs =>
    cases fs with
    | nil =>
      have h := act_plain P junk conn own .close [] .none hbottom rfl
      exact ⟨_, h, .idle (.closed (List.suffix_refl _)) (fun _ => bottom_append hP _ hbottom)
        hcontent hstate⟩
    | cons f fs =>
      have h := act_pending P junk conn own [.close] hbottom hfs (by simp)
      obtain ⟨⟨conn₁, _⟩, hx, hkeeps, rfl⟩ :=
        hP.keeps _ (.inl rfl) f (hfs.subset (.head _)) (conn, own)
      rw [hx] at h
      exact ⟨_, h, .idle (.closing (suffix_tail hfs)) (fun _ => hbottom) (hkeeps.trans hcontent)
        hstate⟩
  | @closed fs hfs =>
    cases fs with
    | nil =>
      have h := act_plain P junk conn own .afterClose [] .none hbottom rfl
      exact ⟨_, h, .idle .ended (fun hne => absurd rfl hne) hcontent hstate⟩
    | cons f fs =>
      have h := act_pending P junk conn own [.afterClose] hbottom hfs (by simp)
      obtain ⟨⟨conn₁, _⟩, hx, hkeeps, rfl⟩ :=
        hP.keeps _ (.inr rfl) f (hfs.subset (.head _)) (conn, own)
      rw [hx] at h
      exact ⟨_, h, .idle (.closed (suffix_tail hfs)) (fun _ => hbottom) (hkeeps.trans hcontent)
        hstate⟩

/-- A step of a function is a step of the operation, or none. -/
theorem Sim.act (hP : P.Lawful) (h : Sim P e t) (hact : Running.act P junk e = some e') :
    Sim P e' t ∨ ∃ t', P.act t = some t' ∧ Sim P e' t' := by
  cases h with
  | @advancing evt fs items conn c own own' x hfs hbottom hruns halike =>
    cases fs with
    | nil =>
      obtain rfl := Option.some.inj hruns
      have h := act_plain P junk conn own .advance [] (.stored none) hbottom rfl
      obtain rfl := Option.some.inj (h.symm.trans hact)
      exact .inl (sim_advance hP hbottom halike)
    | cons f fs =>
      rw [act_pending P junk conn own _ hbottom hfs (by simp)] at hact
      obtain ⟨x', hx', rfl⟩ := Option.map_eq_some_iff.mp hact
      rw [runs_cons, hx', Option.bind_some] at hruns
      exact .inl (.advancing (suffix_tail hfs) hbottom hruns halike)
  | @beforeRecv fs items conn c own own' hfs hbottom hstate hruns =>
    cases fs with
    | nil =>
      obtain ⟨y, hy, halike⟩ := rel_some hruns
      have h := act_plain P junk conn own .beforeRecv [] (.register true) hbottom rfl
      obtain rfl := Option.some.inj (h.symm.trans hact)
      exact .inl (sim_waiting hbottom hstate hy halike)
    | cons f fs =>
      obtain ⟨x, rfl, hx⟩ := sim_pending hbottom hfs (by simp) hruns hact
      exact .inl (.beforeRecv (suffix_tail hfs) hbottom hstate hx)
  | waiting hbottom =>
    rw [Running.act] at hact
    simp only [Option.bind_eq_bind] at hact
    obtain ⟨-, -, hact⟩ := Option.bind_eq_some_iff.mp hact
    cases hact
  | @received items n conn c own own' x hbottom hn hruns halike =>
    obtain rfl := Option.some.inj ((act_received P junk conn own hbottom hn).symm.trans hact)
    exact .inl (.advancing (List.suffix_refl _) (bottom_append hP _ hbottom) hruns halike)
  | @beforeSend fs items conn c own own' hfs hbottom hstate hruns =>
    cases fs with
    | nil =>
      obtain ⟨y, hy, halike⟩ := rel_some hruns
      obtain ⟨halike, hown⟩ : Alike conn y.1 ∧ own = y.2 := halike
      obtain rfl := Option.some.inj ((act_send P junk conn own hbottom).symm.trans hact)
      have habstract : P.act ⟨c, own', none⟩ = some ⟨y.1, y.2, some conn.wbuf.content⟩ := by
        simp only [Program.act, hstate, guard_true, Option.pure_def, Option.bind_eq_bind,
          Option.bind_some, hy, halike.wbuf_eq]
      exact .inr ⟨_, habstract, .sending hbottom (written_nil _) ⟨halike, hown⟩⟩
    | cons f fs =>
      obtain ⟨x, rfl, hx⟩ := sim_pending hbottom hfs (by simp) hruns hact
      exact .inl (.beforeSend (suffix_tail hfs) hbottom hstate hx)
  | @sending items conn c own own' results bytes hbottom hwritten halike =>
    cases bytes with
    | cons => cases hact
    | nil =>
      obtain rfl := Option.some.inj ((act_sent P junk own hwritten).symm.trans hact)
      exact .inl (.afterSend (List.suffix_refl _) (bottom_append hP _ hbottom)
        (runs_respects (hP.respects _) halike))
  | @afterSend fs items conn c own own' hfs hbottom hruns =>
    cases fs with
    | nil =>
      obtain ⟨y, hy, halike⟩ := rel_some hruns
      obtain ⟨halike, hown⟩ : Alike conn y.1 ∧ own = y.2 := halike
      have h := act_plain P junk conn own .afterSend [.advance] .none hbottom rfl
      obtain rfl := Option.some.inj (h.symm.trans hact)
      have habstract : P.act ⟨c, own', some []⟩ =
          some ⟨HttpKeepAlive.afterSend y.1, y.2, none⟩ := by
        simp only [Program.act, Option.bind_eq_bind, hy, Option.bind_some]
      exact .inr ⟨_, habstract, .advancing (List.nil_suffix : [] <:+ P.funcs .afterSend) hbottom
        rfl ⟨halike.afterSend, hown⟩⟩
    | cons f fs =>
      obtain ⟨x, rfl, hx⟩ := sim_pending hbottom hfs (by simp) hruns hact
      exact .inl (.afterSend (suffix_tail hfs) hbottom hx)
  | @idle funcs items conn c own hlast hbottom hcontent hstate =>
    cases funcs with
    | nil => cases hact
    | cons g rest =>
      obtain ⟨e₁, hact₁, h₁⟩ :=
        sim_idle hP hlast (hbottom (List.cons_ne_nil g rest)) hcontent hstate
          (List.cons_ne_nil g rest)
      obtain rfl := Option.some.inj (hact₁.symm.trans hact)
      exact .inl h₁

theorem Sim.write {n : ℕ} (h : Sim P e t) (hwrite : Running.write e n = some (bytes, e')) :
    ∃ n' t', Program.write t n' = some (bytes, t') ∧ Sim P e' t' := by
  cases h with
  | advancing | beforeRecv | waiting | received | beforeSend | afterSend | idle => cases hwrite
  | @sending items conn c own own' results left hbottom hwritten halike =>
    obtain ⟨⟨front, behind⟩, hcut, heq⟩ := Option.map_eq_some_iff.mp hwrite
    obtain ⟨rfl, rfl⟩ := Prod.mk.inj heq
    obtain ⟨rfl, hne⟩ := cut_eq_some hcut
    refine ⟨n, ⟨c, own', some behind⟩, ?_, .sending hbottom (hwritten.concat hne) halike⟩
    rw [Program.write, Option.bind_some, hcut]
    rfl

theorem head_pending (h : (pending evt fs rest).head? = some .executeIo) :
    rest.head? = some .executeIo := by
  cases fs with
  | nil => exact h
  | cons f fs => cases h

theorem Last.head_ne {funcs : List Func} (h : Last P funcs) : funcs.head? ≠ some .executeIo := by
  intro hhead
  cases h with
  | ended => cases hhead
  | closing | closed => cases head_pending hhead

/-- Bytes are put behind those that have been received. -/
theorem execute_read (P : Program σ) (junk : ℕ → UInt8) (conn : Conn) (items : List Item)
    {chunk : List UInt8} (len : ℕ) (hne : chunk ≠ []) :
    step P.handlers junk ⟨conn, ⟨items ++ [.epevt len], [.executeIo, .recv]⟩⟩
        (.read (some chunk)) =
      if chunk.length ≤ len then (conn.rbuf.store conn.rbuf.ptr chunk).map fun rbuf =>
        ⟨{ conn with rbuf }, ⟨items ++ [.value chunk.length], [.recv]⟩⟩
      else none := by
  obtain ⟨b, chunk, rfl⟩ := List.exists_cons_of_ne_nil hne
  have hpop := stackPop_push ⟨items, [.recv]⟩ (.epevt len)
  have hstep : step P.handlers junk ⟨conn, ⟨items ++ [.epevt len], [.executeIo, .recv]⟩⟩
      (.read (some (b :: chunk))) = (executeIo conn (stackPush ⟨items, [.recv]⟩ (.epevt len))
        (some (b :: chunk))).map fun r => ⟨r.1, r.2⟩ := rfl
  rw [hstep, executeIo, hpop]
  simp only
  split
  · rw [Option.map_map]
    rfl
  · rfl

theorem Sim.read (hP : P.Lawful) {chunk : List UInt8} (h : Sim P e t)
    (hread : Running.read P junk e chunk = some e') :
    t.Ready ∧ ∀ t', P.read junk t chunk = some t' → Sim P e' t' := by
  rw [Running.read] at hread
  split at hread
  case isFalse => cases hread
  rename_i hcond
  obtain ⟨hne, hnone, hhead⟩ := hcond
  cases h with
  | advancing | beforeRecv | beforeSend | afterSend => cases head_pending hhead
  | received => cases hhead
  | sending => cases hnone
  | idle hlast => exact absurd hhead hlast.head_ne
  | @waiting items len conn c own own' y hbottom hstate hlen hroom hruns halike =>
    refine ⟨⟨rfl, hstate⟩, fun t' ht => ?_⟩
    obtain ⟨halike, hown⟩ : Alike conn y.1 ∧ own = y.2 := halike
    rw [execute_read P junk conn items len hne] at hread
    split at hread
    case isFalse => cases hread
    rename_i hle
    obtain ⟨rbuf, hstore, rfl⟩ : ∃ rbuf, conn.rbuf.store conn.rbuf.ptr chunk = some rbuf ∧
        (⟨⟨{ conn with rbuf }, ⟨items ++ [.value chunk.length], [.recv]⟩⟩, own, none⟩ :
          Running σ) = e' := by
      rw [Option.map_map] at hread
      exact Option.map_eq_some_iff.mp hread
    obtain ⟨rbuf₁, hstore₁, hptr, hsize, -, hcontent⟩ :=
      Buf.store_at_ptr (b := conn.rbuf) chunk [] (by rw [List.length_nil]; omega)
    rw [List.append_nil, hstore] at hstore₁
    obtain rfl := Option.some.inj hstore₁
    obtain ⟨rbuf', happend, hvalid', hcontent', -⟩ :=
      Buf.memcpyAppend_spec junk halike.valid' chunk
    have hvalid : (rbuf.setPtrRel chunk.length).Valid := by
      refine ⟨?_, ?_⟩
      · rw [Buf.getSize_setPtrRel, hsize]
        exact halike.valid.size_pos
      · rw [Buf.getSize_setPtrRel, hsize, Buf.setPtrRel]
        change (rbuf.ptr + chunk.length : ℤ).toNat ≤ _
        omega
    have hconn : AlikeOwn
        ({ conn with rbuf := rbuf.setPtrRel chunk.length, evtArg.lastRecvLen := chunk.length }, own)
        ({ y.1 with rbuf := rbuf', evtArg.lastRecvLen := chunk.length }, y.2) := by
      refine ⟨⟨?_, hvalid, hvalid', ?_⟩, hown⟩
      · exact hcontent.trans ((congrArg (· ++ chunk) halike.content).trans hcontent'.symm)
      · rw [← halike.rest]
    have hafter := runs_respects (hP.respects .afterRecv) hconn
    simp only [Program.read, hstate, guard_true, Option.pure_def, Option.bind_eq_bind,
      Option.bind_some, hruns, Conn.recv, happend] at ht
    obtain ⟨z, hz, heq⟩ := Option.bind_eq_some_iff.mp ht
    obtain rfl := Option.some.inj heq
    rw [hz] at hafter
    cases hx : runs (P.funcs .afterRecv) ({ conn with
        rbuf := rbuf.setPtrRel chunk.length, evtArg.lastRecvLen := chunk.length }, own) with
    | none =>
      rw [hx] at hafter
      cases hafter
    | some x =>
      rw [hx] at hafter
      cases hafter with
      | some halike' =>
        exact .received hbottom (List.length_pos_of_ne_nil hne).ne' hx halike'

/-- A handler is run when those that are left do something. -/
theorem moves_pending (hbottom : items.head? = some .conn) (hfs : f :: fs <:+ P.funcs evt)
    {rest : List Func} (hrest : .handler evt ∉ rest) (hruns : runs (f :: fs) (conn, own) = some x) :
    Moves (Running.party P junk) ⟨⟨conn, ⟨items, pending evt (f :: fs) rest⟩⟩, own, none⟩ := by
  rw [runs_cons] at hruns
  obtain ⟨x', hx', -⟩ := Option.bind_eq_some_iff.mp hruns
  have h := act_pending P junk conn own _ hbottom hfs hrest
  rw [hx', Option.map_some] at h
  exact .inl ⟨_, h⟩

theorem rel_some' {z : Option (Conn × σ)} (h : Option.Rel AlikeOwn z (some y)) :
    ∃ x, z = some x := by
  cases h with
  | some => exact ⟨_, rfl⟩

/-- Before an operation, or behind a send. -/
theorem moves_rel {z : Option (Conn × σ)} {rest : List Func} (hbottom : items.head? = some .conn)
    (hfs : fs <:+ P.funcs evt) (hrest : .handler evt ∉ rest)
    (hruns : Option.Rel AlikeOwn (runs fs (conn, own)) z) (hz : z = some y)
    (hnil : Moves (Running.party P junk) ⟨⟨conn, ⟨items, rest⟩⟩, own, none⟩) :
    Moves (Running.party P junk) ⟨⟨conn, ⟨items, pending evt fs rest⟩⟩, own, none⟩ := by
  cases fs with
  | nil => exact hnil
  | cons f fs =>
    rw [hz] at hruns
    obtain ⟨x, hx⟩ := rel_some' hruns
    exact moves_pending hbottom hfs hrest hx

theorem Sim.moves (h : Sim P e t) (hmoves : Moves (P.party junk) t) :
    Moves (Running.party P junk) e := by
  cases h with
  | @advancing evt fs items conn c own own' x hfs hbottom hruns halike =>
    cases fs with
    | nil =>
      have h := act_plain P junk conn own .advance [] (.stored none) hbottom rfl
      exact .inl ⟨_, h⟩
    | cons f fs => exact moves_pending hbottom hfs (by simp) hruns
  | beforeRecv hfs hbottom hstate | waiting hbottom hstate =>
    rcases hmoves with ⟨t', ht⟩ | ⟨n, r, hr⟩
    · simp only [Program.party, Program.act, hstate, Option.bind_eq_bind] at ht
      cases ht
    · cases hr
  | @received items n conn c own own' x hbottom hn =>
    exact .inl ⟨_, act_received P junk conn own hbottom hn⟩
  | @beforeSend fs items conn c own own' hfs hbottom hstate hruns =>
    obtain ⟨y, hy⟩ :
        ∃ y, runs (P.funcs .beforeSend) ({ c with state := .none }, own') = some y := by
      rcases hmoves with ⟨t', ht⟩ | ⟨n, r, hr⟩
      · simp only [Program.party, Program.act, hstate, guard_true, Option.pure_def,
          Option.bind_eq_bind, Option.bind_some] at ht
        obtain ⟨y, hy, -⟩ := Option.bind_eq_some_iff.mp ht
        exact ⟨y, hy⟩
      · cases hr
    exact moves_rel hbottom hfs (by simp) hruns hy (.inl ⟨_, act_send P junk conn own hbottom⟩)
  | @sending items conn c own own' results bytes hbottom hwritten =>
    cases bytes with
    | nil => exact .inl ⟨_, act_sent P junk own hwritten⟩
    | cons b bytes =>
      obtain ⟨n, hcut⟩ := exists_cut (List.cons_ne_nil b bytes)
      refine .inr ⟨n, (b :: bytes, ⟨⟨conn, ⟨items, [.send]⟩⟩, own,
        some (results ++ [some (b :: bytes).length], [])⟩), ?_⟩
      change Option.map _ (cut (b :: bytes) n) = _
      rw [hcut]
      rfl
  | @afterSend fs items conn c own own' hfs hbottom hruns =>
    obtain ⟨y, hy⟩ : ∃ y, runs (P.funcs .afterSend) (c, own') = some y := by
      rcases hmoves with ⟨t', ht⟩ | ⟨n, r, hr⟩
      · obtain ⟨y, hy, -⟩ := Option.bind_eq_some_iff.mp ht
        exact ⟨y, hy⟩
      · obtain ⟨parts, hcut, -⟩ := Option.map_eq_some_iff.mp hr
        obtain ⟨hnil, hne⟩ := cut_eq_some hcut
        exact absurd (List.append_eq_nil_iff.mp hnil.symm).1 hne
    have h := act_plain P junk conn own .afterSend [.advance] .none hbottom rfl
    exact moves_rel hbottom hfs (by simp) hruns hy (.inl ⟨_, h⟩)
  | idle hlast hbottom hcontent hstate =>
    rcases hmoves with ⟨t', ht⟩ | ⟨n, r, hr⟩
    · simp only [Program.party, Program.act, hstate.2, Option.bind_eq_bind] at ht
      cases ht
    · cases hr

/-- A connection that waits takes the next byte. -/
theorem Sim.takes {chunk : List UInt8} (h : Sim P e t) (hread : P.read junk t chunk = some t') :
    Moves (Running.party P junk) e ∨ Takes (Running.party P junk) e := by
  obtain ⟨hunsent, hstate, y, hy⟩ : t.unsent = none ∧ t.conn.state = .recv ∧
      ∃ y, runs (P.funcs .beforeRecv) ({ t.conn with state := .none }, t.own) = some y := by
    rw [Program.read] at hread
    obtain ⟨_, hunsent, hread⟩ := Option.bind_eq_some_iff.mp hread
    obtain ⟨_, hstate, hread⟩ := Option.bind_eq_some_iff.mp hread
    obtain ⟨y, hy, -⟩ := Option.bind_eq_some_iff.mp hread
    exact ⟨(Option.guard_eq_some' _).mp hunsent, (Option.guard_eq_some' _).mp hstate, y, hy⟩
  cases h with
  | @advancing evt fs items conn c own own' x hfs hbottom hruns =>
    cases fs with
    | nil =>
      have h := act_plain P junk conn own .advance [] (.stored none) hbottom rfl
      exact .inl (.inl ⟨_, h⟩)
    | cons f fs => exact .inl (moves_pending hbottom hfs (by simp) hruns)
  | @beforeRecv fs items conn c own own' hfs hbottom hstate hruns =>
    have h := act_plain P junk conn own .beforeRecv [] (.register true) hbottom rfl
    exact .inl (moves_rel hbottom hfs (by simp) hruns hy (.inl ⟨_, h⟩))
  | @waiting items len conn c own own' y hbottom hstate hlen hroom =>
    refine .inr fun stream hne => ?_
    obtain ⟨b, stream, rfl⟩ := List.exists_cons_of_ne_nil hne
    obtain ⟨rbuf, hstore, -⟩ := Buf.store_spec conn.rbuf conn.rbuf.ptr [b]
      (by rw [List.length_singleton]; omega)
    have hstep := execute_read P junk conn items len (List.cons_ne_nil b [])
    rw [if_pos (by rw [List.length_singleton]; exact hlen), hstore, Option.map_some] at hstep
    have hread : Running.read P junk ⟨⟨conn, ⟨items ++ [.epevt len], [.executeIo, .recv]⟩⟩, own,
        none⟩ [b] = some ⟨⟨{ conn with rbuf }, ⟨items ++ [.value 1], [.recv]⟩⟩, own, none⟩ := by
      rw [Running.read, if_pos ⟨List.cons_ne_nil b [], rfl, rfl⟩, hstep]
      rfl
    exact ⟨1, [b], stream, _, by simp [cut], hread⟩
  | @received items n conn c own own' x hbottom hn =>
    exact .inl (.inl ⟨_, act_received P junk conn own hbottom hn⟩)
  | beforeSend hfs hbottom hsend =>
    rw [hsend] at hstate
    cases hstate
  | sending | afterSend => cases hunsent
  | idle hlast hbottom hcontent hidle => exact absurd hstate hidle.1

/-- A connection that is closed, or of which nothing is asked, comes to its end. -/
theorem Sim.ends (hP : P.Lawful) (junk : ℕ → UInt8) (h : Sim P e t) (hunsent : t.unsent = none)
    (hstate : t.conn.state ≠ .recv ∧ t.conn.state ≠ .send) : Moves (Running.party P junk) e ∨
      e.machine.cb.funcs = [] ∧ e.machine.conn.rbuf.content = t.conn.rbuf.content := by
  cases h with
  | @advancing evt fs items conn c own own' x hfs hbottom hruns =>
    cases fs with
    | nil =>
      have h := act_plain P junk conn own .advance [] (.stored none) hbottom rfl
      exact .inl (.inl ⟨_, h⟩)
    | cons f fs => exact .inl (moves_pending hbottom hfs (by simp) hruns)
  | beforeRecv _ _ hrecv | waiting _ hrecv => exact absurd hrecv hstate.1
  | beforeSend _ _ hsend => exact absurd hsend hstate.2
  | @received items n conn c own own' x hbottom hn =>
    exact .inl (.inl ⟨_, act_received P junk conn own hbottom hn⟩)
  | sending | afterSend => cases hunsent
  | @idle funcs items conn c own hlast hbottom hcontent hstate =>
    cases funcs with
    | nil => exact .inr ⟨rfl, hcontent⟩
    | cons g rest =>
      obtain ⟨e₁, hact, -⟩ :=
        sim_idle hP hlast (hbottom (List.cons_ne_nil g rest)) hcontent hstate
          (List.cons_ne_nil g rest)
      exact .inl (.inl ⟨e₁, hact⟩)

/-- Functions on a stack do what sending and receiving does. -/
theorem refines (hP : P.Lawful) (junk : ℕ → UInt8) :
    Refines (Running.party P junk) (P.party junk) Endpoint.Ready (Sim P) where
  act h hact := h.act hP hact
  write h hwrite := h.write hwrite
  read h hread := h.read hP hread
  moves h hmoves := h.moves hmoves
  takes h hread := h.takes hread

/-- `uo_tcp_conn_open`. -/
def Running.opened (P : Program σ) (conn : Conn) (own : σ) : Running σ :=
  ⟨ConnIndex.opened P.handlers conn, own, none⟩

theorem sim_opened (hP : P.Lawful) (hvalid : conn.rbuf.Valid)
    (hruns : runs (P.funcs .afterOpen) (conn, own) = some x) :
    Sim P (Running.opened P conn own) ⟨x.1, x.2, none⟩ := by
  have hsame : AlikeOwn (conn, own) (conn, own) := ⟨⟨rfl, hvalid, hvalid, rfl⟩, rfl⟩
  have halike := runs_respects (hP.respects .afterOpen) hsame
  rw [hruns] at halike
  obtain ⟨y, hy, halike⟩ := rel_some halike
  obtain rfl := Option.some.inj hy
  have hbottom : (P.items .afterOpen ++ [Item.conn]).head? = some .conn := bottom_append hP _ rfl
  exact .advancing (List.suffix_refl _) hbottom hruns halike

end Libuo.ConnPrograms
