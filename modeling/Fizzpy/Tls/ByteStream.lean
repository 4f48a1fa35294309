import Fizzpy.Tls.TlsSocket

/-!
# The byte stream

On its way from the transport to the caller of `recv` a byte is in one of three stores: the native
buffers, a chunk in flight, the Python buffer. Nothing is lost, repeated or reordered between them,
and neither the end of the stream nor an error overtakes data that came before it.
-/

namespace Fizzpy

open Foundation

namespace TlsSocket

/-! ## What was delivered before -/

/-- An event happened, and all that had been delivered before it is a prefix of `out`. -/
def Before (h : List Event) (e : TlsConnection.Event) (out : Bytes) : Prop :=
  ∃ h₁ h₂, h = h₁ ++ .loop e :: h₂ ∧ delivered h₁ <+: out

theorem delivered_append (as bs : List Event) : delivered (as ++ bs) = delivered as ++ delivered bs :=
  List.flatMap_append

theorem delivered_loop (e : TlsConnection.Event) : delivered [.loop e] = e.received := by
  cases e with
  | readBufferAvailable buf => simp [delivered, TlsConnection.Event.received,
      TlsConnection.Event.chunks, TlsConnection.flatten_toList]
  | _ => rfl

theorem delivered_concat_other {e : Event} (he : ∀ x, e ≠ .loop x) (h : List Event) :
    delivered (h ++ [e]) = delivered h := by
  rw [delivered_append]
  cases e with
  | loop x => exact absurd rfl (he x)
  | _ => exact List.append_nil _

theorem Before.later {h : List Event} {e : TlsConnection.Event} {out : Bytes} (hb : Before h e out)
    (es : List Event) : Before (h ++ es) e out := by
  obtain ⟨h₁, h₂, rfl, hd⟩ := hb
  exact ⟨h₁, h₂ ++ es, by simp, hd⟩

theorem before_of_mem {h : List Event} {e : TlsConnection.Event} {out : Bytes} (he : .loop e ∈ h)
    (hd : delivered h = out) : Before h e out := by
  obtain ⟨h₁, h₂, rfl⟩ := List.append_of_mem he
  rw [delivered_append] at hd
  exact ⟨h₁, h₂, rfl, ⟨_, hd⟩⟩

theorem before_last {h : List Event} {e : TlsConnection.Event} {out : Bytes} (hd : delivered h = out) :
    Before (h ++ [.loop e]) e out := ⟨h, [], rfl, hd ▸ List.prefix_rfl⟩

/-! ## The invariant -/

/-- A result is no longer than asked for, and no end of stream or error is early. -/
structure Explained (h : List Event) (out : Bytes) (r : ReadResult) : Prop where
  size : r.data.length ≤ r.call.size
  ended : ∀ ret, r.outcome = .ok ret → ret.data = [] → Before h .readEOF out
  failed : ∀ msg, r.outcome = .error (.connectionError msg) →
    ∃ what, msg = TlsConnection.readErrMessage what ∧ Before h (.readErr what) out

/-- What the reader will wake up to is not early either. -/
structure Timely (h : List Event) (out : Bytes) (a : Answer) : Prop where
  ended : a = .resolve [] → Before h .readEOF out
  failed : ∀ msg, a = .reject (.connectionError msg) →
    ∃ what, msg = TlsConnection.readErrMessage what ∧ Before h (.readErr what) out

structure Flow (h : List Event) (s : TlsSocket) : Prop extends Synced s where
  valid : ∀ c p, s.reader = .waiting c p → c.Valid
  solid : ∀ b ∈ s.conn.buffer, b ≠ []
  bytes : s.returned ++ s.rbuf ++ s.inFlight ++ s.conn.buffer.flatten = delivered h
  seenEof : s.conn.eof = true → .loop .readEOF ∈ h
  seenErr : ∀ msg, s.conn.readErr = some msg →
    ∃ what, msg = TlsConnection.readErrMessage what ∧ .loop (.readErr what) ∈ h
  ended : s.eof = true → Before h .readEOF s.returned
  timely : ∀ a, s.answer? = some a → Timely h s.returned a
  results : ∀ pre r post, s.results = pre ++ r :: post →
    Explained h (pre.flatMap ReadResult.data) r

theorem Explained.later {h : List Event} {out : Bytes} {r : ReadResult} (hx : Explained h out r)
    (es : List Event) : Explained (h ++ es) out r where
  size := hx.size
  ended ret hr hd := (hx.ended ret hr hd).later es
  failed msg hr := by
    obtain ⟨what, hm, hb⟩ := hx.failed msg hr
    exact ⟨what, hm, hb.later es⟩

theorem Timely.later {h : List Event} {out : Bytes} {a : Answer} (ht : Timely h out a)
    (es : List Event) : Timely (h ++ es) out a where
  ended ha := (ht.ended ha).later es
  failed msg ha := by
    obtain ⟨what, hm, hb⟩ := ht.failed msg ha
    exact ⟨what, hm, hb.later es⟩

theorem flow_wrapped : Flow [] wrapped where
  toSynced := synced_wrapped
  valid c p h := by cases h
  solid b h := by cases h
  bytes := rfl
  seenEof h := by cases h
  seenErr msg h := by cases h
  ended h := by cases h
  timely a h := by cases h
  results pre r post h := by cases pre <;> cases h

/-- The results before the last one were explained already. -/
theorem explained_concat {h : List Event} {results : List ReadResult} {r : ReadResult}
    (hres : ∀ pre x post, results = pre ++ x :: post → Explained h (pre.flatMap ReadResult.data) x)
    (hr : Explained h (results.flatMap ReadResult.data) r) :
    ∀ pre x post, results ++ [r] = pre ++ x :: post → Explained h (pre.flatMap ReadResult.data) x := by
  intro pre x post heq
  rcases List.eq_nil_or_concat post with rfl | ⟨post, y, rfl⟩
  · obtain ⟨rfl, hx⟩ := List.append_inj' heq rfl
    obtain rfl := List.singleton_inj.mp hx
    exact hr
  · rw [List.concat_eq_append, ← List.cons_append, ← List.append_assoc] at heq
    exact hres pre x post (List.append_inj' heq rfl).1

/-! ## The steps -/

theorem data_ok (call : ReadCall) (data : Bytes) :
    (ReadResult.mk call (.ok (call.finish data))).data = data :=
  ReadCall.data_finish call data

/-- A call that hands out `data`, which was at the front of what it had not handed out. -/
theorem flow_finish {h : List Event} {s : TlsSocket} {e : Event} (eof : Bool) (hf : Flow h s)
    (he : ∀ x, e ≠ .loop x) {call : ReadCall} {data rbuf : Bytes}
    (hidle : s.conn.outstanding = []) (hsize : data.length ≤ call.size)
    (hdata : data ++ rbuf = s.rbuf ++ s.inFlight)
    (hend : data = [] ∨ eof = true → Before h .readEOF s.returned) :
    Flow (h ++ [e]) (finish call data { s with rbuf := rbuf, eof := eof }) := by
  have hret : (finish call data { s with rbuf := rbuf, eof := eof }).returned = s.returned ++ data := by
    unfold returned finish
    rw [List.flatMap_append, List.flatMap_singleton, data_ok]
  refine ⟨⟨hf.inv, fun _ => hidle, nofun⟩, nofun, hf.solid, ?_,
    fun hc => List.mem_append_left _ (hf.seenEof hc), fun msg hm => ?_, fun hc => ?_,
    nofun, ?_⟩
  · rw [hret, delivered_concat_other he, ← hf.bytes]
    show s.returned ++ data ++ rbuf ++ [] ++ s.conn.buffer.flatten = _
    rw [List.append_nil, List.append_assoc s.returned data rbuf, hdata, ← List.append_assoc]
  · obtain ⟨what, hm, hb⟩ := hf.seenErr msg hm
    exact ⟨what, hm, List.mem_append_left _ hb⟩
  · obtain ⟨h₁, h₂, hh, hd⟩ := (hend (.inr hc)).later [e]
    rw [hret]
    exact ⟨h₁, h₂, hh, hd.trans (List.prefix_append _ _)⟩
  · refine explained_concat (fun pre r post hr => (hf.results pre r post hr).later [e]) ⟨?_, ?_, ?_⟩
    · rw [data_ok]; exact hsize
    · intro ret hret hd
      cases hret
      rw [ReadCall.data_finish] at hd
      exact (hend (.inl hd)).later [e]
    · intro msg hm
      cases hm

theorem flow_fail {h : List Event} {s : TlsSocket} {e : Event} (hf : Flow h s)
    (he : ∀ x, e ≠ .loop x) {call : ReadCall} {error : CoreError}
    (hidle : s.conn.outstanding = []) (hans : s.answer? = some (.reject error)) :
    Flow (h ++ [e]) (fail call error s) := by
  have hret : (fail call error s).returned = s.returned := by
    unfold returned fail
    rw [List.flatMap_append, List.flatMap_singleton]
    exact List.append_nil _
  have hfly : s.inFlight = [] := by unfold inFlight; rw [hans]; rfl
  refine ⟨⟨hf.inv, fun _ => hidle, nofun⟩, nofun, hf.solid, ?_,
    fun hc => List.mem_append_left _ (hf.seenEof hc), fun msg hm => ?_, fun hc => ?_,
    nofun, ?_⟩
  · rw [hret, delivered_concat_other he, ← hf.bytes, hfly]
    rfl
  · obtain ⟨what, hm, hb⟩ := hf.seenErr msg hm
    exact ⟨what, hm, List.mem_append_left _ hb⟩
  · rw [hret]
    exact (hf.ended hc).later [e]
  · refine explained_concat (fun pre r post hr => (hf.results pre r post hr).later [e]) ⟨?_, ?_, ?_⟩
    · exact Nat.zero_le _
    · intro ret hok
      cases hok
    · intro msg hm
      have hmsg : error = .connectionError msg := Except.error.inj hm
      obtain ⟨what, hm, hb⟩ := (hf.timely _ hans).failed msg (by rw [hmsg])
      exact ⟨what, hm, hb.later [e]⟩

theorem flow_resume {h : List Event} {s s' : TlsSocket} (hf : Flow h s)
    (hs : s.step .resume = some s') : Flow (h ++ [.resume]) s' := by
  obtain ⟨c, p, a, hr, hans, rfl, hb, he, ho⟩ := resume_cases hf.toSynced hs
  have hother : ∀ x, Event.resume ≠ .loop x := fun x hx => by cases hx
  cases a with
  | reject error => exact flow_fail hf hother ho hans
  | resolve chunk =>
    have hfly : s.inFlight = chunk := by unfold inFlight; rw [hans]; rfl
    unfold resume
    dsimp only
    split_ifs with hc
    · subst hc
      have hend := (hf.timely _ hans).ended rfl
      exact flow_finish true hf hother ho (Nat.zero_le _) (by rw [hfly, hb]) fun _ => hend
    · have hpos := (hf.valid c p hr).size_pos
      refine flow_finish s.eof hf hother ho (List.length_take_le _ _) ?_ ?_
      · rw [List.take_append_drop, hb, hfly, List.nil_append]
      · rintro (htake | heof)
        · rcases List.take_eq_nil_iff.mp htake with h0 | h0
          · omega
          · exact absurd h0 hc
        · exact hf.ended heof

theorem flow_call {h : List Event} {s s' : TlsSocket} {c : ReadCall} {timeoutMs : ℕ} (hf : Flow h s)
    (hv : c.Valid) (hs : s.step (.call c timeoutMs) = some s') :
    Flow (h ++ [.call c timeoutMs]) s' := by
  have hother : ∀ x, Event.call c timeoutMs ≠ .loop x := fun x hx => by cases hx
  simp only [step] at hs
  split_ifs at hs with hr
  have hfly : s.inFlight = [] := by unfold inFlight answer?; rw [hr]; rfl
  have ho := hf.idle hr
  obtain ⟨hb, rfl⟩ | ⟨hb, he, rfl⟩ | ⟨hb, he, p, conn, rfl, hinv, hout, hl, hbuf, heof, herr, hset⟩ :=
    call_cases hf.toSynced hs
  · refine flow_finish s.eof hf hother ho (List.length_take_le _ _) ?_ ?_
    · rw [List.take_append_drop, hfly, List.append_nil]
    · rintro (htake | heof)
      · have hpos := hv.size_pos
        rcases List.take_eq_nil_iff.mp htake with h0 | h0
        · omega
        · exact absurd h0 hb
      · exact hf.ended heof
  · exact flow_finish s.eof hf hother ho (Nat.zero_le _) (by rw [hfly, hb]) fun _ => hf.ended he
  · have hnone : { s with conn := conn, reader := .waiting c p }.answer? = none := hl
    refine ⟨synced_step (e := .call c timeoutMs) hf.toSynced (by simp only [step, if_pos hr]; exact hs),
      ?_, ?_, ?_, ?_, ?_, ?_, ?_, ?_⟩
    · intro c' p' hr'; cases hr'; exact hv
    · rw [hbuf]; exact hf.solid
    · rw [delivered_concat_other hother, ← hf.bytes, hfly]
      unfold inFlight
      rw [hnone, hbuf]
      rfl
    · intro hc; exact List.mem_append_left _ (hf.seenEof (heof ▸ hc))
    · intro msg hm
      obtain ⟨what, hm, hb⟩ := hf.seenErr msg (herr ▸ hm)
      exact ⟨what, hm, List.mem_append_left _ hb⟩
    · intro hc; exact (hf.ended hc).later _
    · intro a ha; rw [hnone] at ha; cases ha
    · intro pre r post hr; exact (hf.results pre r post hr).later _

/-- Between an answered read and the transport there is nothing but what was returned. -/
theorem returned_eq {h : List Event} {s : TlsSocket} (hf : Flow h s) (hb : s.rbuf = [])
    (ha : s.answer? = none) (hbuf : s.conn.buffer = []) : delivered h = s.returned := by
  have := hf.bytes
  unfold inFlight at this
  rw [hb, ha, hbuf] at this
  simpa using this.symm

/-- An answer is not early. -/
theorem timely_of_settlement {h : List Event} {s : TlsSocket} {e : TlsConnection.Event} {p : ℕ}
    {a : Answer} (hf : Flow h s) (hv : (Event.loop e).Valid) (hb : s.rbuf = []) (hans : s.answer? = none)
    (hset : s.conn.settlement e = some (p, a)) : Timely (h ++ [.loop e]) s.returned a := by
  cases ha : e.answer with
  | some b =>
    rw [TlsConnection.settlement_of_answer ha, Option.map_eq_some_iff] at hset
    obtain ⟨q, hq, heq⟩ := hset
    cases heq
    obtain ⟨hbuf, -, -⟩ := hf.inv.parked (by rw [hq]; exact Option.some_ne_none _)
    have hret := returned_eq hf hb hans hbuf
    cases e with
    | connect | read | close | runTask | connectSuccess => cases ha
    | readBufferAvailable buf =>
      cases ha
      exact ⟨fun h0 => absurd (Answer.resolve.inj h0) hv, fun _ h => by cases h⟩
    | readEOF =>
      cases ha
      exact ⟨fun _ => before_last hret, fun _ h => by cases h⟩
    | readErr what =>
      cases ha
      refine ⟨(fun h => by cases h), fun msg hm => ⟨what, ?_, before_last hret⟩⟩
      cases hm
      rfl
    | readTimeout => cases ha; exact ⟨(fun h => by cases h), fun _ h => by cases h⟩
  | none =>
    obtain rfl : e = .runTask := by
      by_contra hrun
      rw [TlsConnection.settlement_of_quiet ha hrun] at hset
      cases hset
    simp only [TlsConnection.settlement] at hset
    split at hset
    · rename_i q ms ts ht
      split_ifs at hset with hun
      rw [Option.some.injEq, Prod.mk.injEq] at hset
      obtain ⟨rfl, rfl⟩ := hset
      unfold TlsConnection.waitingAnswer
      by_cases hbuf : s.conn.buffer = []
      · rw [if_neg (not_not.mpr hbuf)]
        have hret := returned_eq hf hb hans hbuf
        cases hr : s.conn.readErr with
        | some msg =>
          obtain ⟨what, hm, hmem⟩ := hf.seenErr msg hr
          refine ⟨(fun h => by cases h), fun msg' hm' => ⟨what, ?_, (before_of_mem hmem hret).later _⟩⟩
          cases hm'
          exact hm
        | none =>
          have heof : s.conn.eof = true := by
            by_contra he
            exact hun ⟨hbuf, by simpa using he, hr⟩
          exact ⟨fun _ => (before_of_mem (hf.seenEof heof) hret).later _, fun _ h => by cases h⟩
      · rw [if_pos hbuf]
        refine ⟨fun h0 => ?_, fun _ h => by cases h⟩
        obtain ⟨b, bs, hbs⟩ := List.exists_cons_of_ne_nil hbuf
        have hflat := Answer.resolve.inj h0
        rw [hbs, List.flatten_cons, List.append_eq_nil_iff] at hflat
        exact absurd hflat.1 (hf.solid b (by simp [hbs]))
    · cases hset

theorem solid_handled {c c' : TlsConnection} {e : TlsConnection.Event} (hs : c.Handled e c')
    (hv : (Event.loop e).Valid) (hc : ∀ b ∈ c.buffer, b ≠ []) : ∀ b ∈ c'.buffer, b ≠ [] := by
  intro b hb
  rcases List.mem_append.mp (hs.buffer b hb) with h | h
  · exact hc b h
  · cases e with
    | readBufferAvailable buf =>
      obtain rfl := Option.mem_toList.mp h
      exact hv
    | _ => cases h

theorem flow_loop {h : List Event} {s s' : TlsSocket} {e : TlsConnection.Event} (hf : Flow h s)
    (hv : (Event.loop e).Valid) (hs : s.step (.loop e) = some s') : Flow (h ++ [.loop e]) s' := by
  have hsync := synced_step hf.toSynced hs
  obtain ⟨conn, rfl, -, hh⟩ := step_loop hf.toSynced hs
  have hbytes := hh.bytes
  refine ⟨hsync, hf.valid, solid_handled hh hv hf.solid, ?_, fun hc => ?_, fun msg hm => ?_,
    fun hc => (hf.ended hc).later _, fun a ha => ?_,
    fun pre r post hr => (hf.results pre r post hr).later _⟩
  · rw [delivered_append, delivered_loop, ← hf.bytes]
    show s.returned ++ s.rbuf ++ { s with conn := conn }.inFlight ++ conn.buffer.flatten = _
    obtain ⟨hset, hans, -⟩ | ⟨c, p, a, -, hset, hans, hans', -⟩ := synced_conn hf.toSynced hh
    · rw [hset] at hbytes
      have hbytes : conn.buffer.flatten = s.conn.buffer.flatten ++ e.received := hbytes
      unfold inFlight
      rw [hans, hbytes, List.append_assoc, List.append_assoc, List.append_assoc, List.append_assoc,
        List.append_assoc]
    · rw [hset] at hbytes
      have hbytes : a.data ++ conn.buffer.flatten = s.conn.buffer.flatten ++ e.received := hbytes
      unfold inFlight
      rw [hans, hans']
      show s.returned ++ s.rbuf ++ a.data ++ conn.buffer.flatten =
        s.returned ++ s.rbuf ++ [] ++ s.conn.buffer.flatten ++ e.received
      rw [List.append_nil, List.append_assoc _ a.data, hbytes, ← List.append_assoc]
  · rw [show conn.eof = _ from hh.eof] at hc
    cases e with
    | readEOF => simp
    | _ => exact List.mem_append_left _ (hf.seenEof hc)
  · rw [show conn.readErr = _ from hh.readErr] at hm
    cases e with
    | readErr what => exact ⟨what, (Option.some.inj hm).symm, by simp⟩
    | _ =>
      obtain ⟨what, hm, hb⟩ := hf.seenErr msg hm
      exact ⟨what, hm, List.mem_append_left _ hb⟩
  · obtain ⟨-, hans, -⟩ | ⟨c, p, b, hr, hset, hans, hans', -⟩ := synced_conn hf.toSynced hh
    · rw [hans] at ha
      exact (hf.timely a ha).later _
    · rw [hans', Option.some.injEq] at ha
      subst ha
      show Timely _ s.returned b
      exact timely_of_settlement hf hv (hf.waiting c p hr).1 hans hset

theorem flow_close {h : List Event} {s : TlsSocket} (hf : Flow h s) : Flow (h ++ [.close]) s.close := by
  have hother : ∀ x, Event.close ≠ .loop x := fun x hx => by cases hx
  have hsync := synced_step (e := .close) hf.toSynced rfl
  have hbytes := hf.bytes
  rw [← delivered_concat_other hother] at hbytes
  unfold close at hsync ⊢
  split_ifs at hsync ⊢
  all_goals
    refine ⟨hsync, hf.valid, hf.solid, hbytes, fun hc => List.mem_append_left _ (hf.seenEof hc),
      fun msg hm => ?_, fun hc => (hf.ended hc).later _, fun a ha => (hf.timely a ha).later _,
      fun pre r post hr => (hf.results pre r post hr).later _⟩
    obtain ⟨what, hm, hb⟩ := hf.seenErr msg hm
    exact ⟨what, hm, List.mem_append_left _ hb⟩

theorem flow_step {h : List Event} {s s' : TlsSocket} {e : Event} (hf : Flow h s) (hv : e.Valid)
    (hs : s.step e = some s') : Flow (h ++ [e]) s' := by
  cases e with
  | call c timeoutMs => exact flow_call hf hv hs
  | resume => exact flow_resume hf hs
  | close => cases hs; exact flow_close hf
  | loop e => exact flow_loop hf hv hs

theorem flow_run {es : List Event} {s : TlsSocket} (hv : ∀ e ∈ es, e.Valid)
    (hr : run step wrapped es = some s) : Flow es s :=
  run_history (fun _ _ _ _ hf hv hs => flow_step hf hv hs) hv [] flow_wrapped hr

/-- **The byte stream.** In every run with non-empty buffers and reads that ask for something, what
was returned, then the Python buffer, a chunk in flight and the native buffers are just what was
delivered. No result is longer than asked for, and when a call reports the end of the stream or a
transport error, all that was delivered before it has been returned. -/
theorem byte_stream {es : List Event} {s : TlsSocket} (hv : ∀ e ∈ es, e.Valid)
    (hr : run step wrapped es = some s) :
    s.returned ++ s.rbuf ++ s.inFlight ++ s.conn.buffer.flatten = delivered es ∧
    (s.inFlight = [] → s.returned ++ s.rbuf ++ s.conn.buffer.flatten = delivered es) ∧
    (∀ r ∈ s.results, r.data.length ≤ r.call.size) ∧
    ∀ pre r post, s.results = pre ++ r :: post →
      (∀ ret, r.outcome = .ok ret → ret.data = [] →
        Before es .readEOF (pre.flatMap ReadResult.data)) ∧
      ∀ msg, r.outcome = .error (.connectionError msg) →
        ∃ what, msg = TlsConnection.readErrMessage what ∧
          Before es (.readErr what) (pre.flatMap ReadResult.data) := by
  have hf := flow_run hv hr
  refine ⟨hf.bytes, fun hfly => ?_, fun r hmem => ?_, fun pre r post hres => ?_⟩
  · rw [← hf.bytes, hfly, List.append_nil]
  · obtain ⟨pre, post, hres⟩ := List.append_of_mem hmem
    exact (hf.results pre r post hres).size
  · exact ⟨(hf.results pre r post hres).ended, (hf.results pre r post hres).failed⟩

/-- A read that times out, and two that take a chunk in parts before the end of the stream. -/
def retryRun : List Event :=
  [.call (.recv 2) 5, .loop .runTask, .loop .readTimeout, .resume, .call (.recv 2) 0, .loop .runTask,
    .loop (.readBufferAvailable (some (ascii "abc"))), .loop .readEOF, .resume,
    .call (.recvInto [0, 0] 0) 0, .call (.recv 1) 0, .loop .runTask, .resume]

theorem byte_stream_retry : ∃ s, run step wrapped retryRun = some s ∧
    s.results.map ReadResult.data = [[], ascii "ab", ascii "c", []] ∧
    (s.inFlight = [] → s.returned ++ s.rbuf ++ s.conn.buffer.flatten = delivered retryRun) :=
  ⟨_, rfl, by decide, (byte_stream (by decide) (rfl : run step _ retryRun = some _)).2.1⟩

end TlsSocket

end Fizzpy
