import TinyKV.Proofs.Reservations
import TinyKV.Spec.Resp

/-!
# One reply to each request

A request in RESP is answered in RESP by the store and by every error of the
parser, since no message has a line end in it and a bulk string may hold any
bytes. The exceptions are the requests that are answered before the protocol
is looked at: those of other nodes, `RAFT_STATUS` and `METRICS`. They are
answered in text, which no client of the protocol can read. And a frame that
announces more arguments than can be reserved gets no answer at all.
-/

namespace TinyKV

open Text

/-! ## Values -/

theorem notMem_of_clean {line : Str} (h : line.all cleanByte = true) : 13 ∉ line := by
  intro hmem
  have hclean := List.all_eq_true.mp h 13 hmem
  revert hclean
  decide

theorem append_crlf (line rest : Str) : line ++ crlf ++ rest = line ++ 13 :: 10 :: rest := by
  rw [List.append_assoc]
  rfl

theorem oneReply_simple {text : Str} (h : text.all cleanByte = true) :
    OneReply (respSimple text) := by
  refine ⟨.simple text, fun rest => ?_⟩
  rw [respSimple, List.cons_append, append_crlf, readReply,
    readCrlfLine_of_notMem (notMem_of_clean h)]
  simp only [h, if_true]

theorem oneReply_error {message : Str} (h : message.all cleanByte = true) :
    OneReply (45 :: (message ++ crlf)) := by
  refine ⟨.error message, fun rest => ?_⟩
  rw [List.cons_append, append_crlf, readReply, readCrlfLine_of_notMem (notMem_of_clean h)]
  simp [h]

theorem oneReply_respError {message : Str} (h : message.all cleanByte = true) :
    OneReply (respError message) := by
  refine oneReply_error ?_
  split
  · have herr : (str "ERR ").all cleanByte = true := all_str (by decide +kernel)
    have hdrop : (message.drop 6).all cleanByte = true := by
      rw [List.all_eq_true] at h ⊢
      exact fun c hc => h c (List.mem_of_mem_drop hc)
    rw [List.all_append, herr, hdrop]
    rfl
  · exact h

theorem oneReply_integer (n : Int) : OneReply (respInteger n) := by
  refine ⟨.integer n, fun rest => ?_⟩
  have hline : 13 ∉ showInt n := showInt_notMem (by decide) (by decide)
  rw [respInteger, List.cons_append, append_crlf, readReply, readCrlfLine_of_notMem hline]
  simp [readInt_showInt_end]

/-- A bulk string may hold anything. -/
theorem oneReply_bulk (value : Option Str) : OneReply (respBulkReply value) := by
  refine ⟨.bulk value, fun rest => ?_⟩
  cases value with
  | none => rfl
  | some value =>
    have hline : 13 ∉ showNat value.length := notMem_showNat (by decide) _
    have hread : readInt (showNat value.length) = some ((value.length : Int), []) :=
      readInt_showInt_end value.length
    have hpayload : value ++ crlf ++ rest = value ++ 13 :: 10 :: rest := append_crlf value rest
    have hreply : respBulkReply (some value) ++ rest =
        36 :: (showNat value.length ++ 13 :: 10 :: (value ++ 13 :: 10 :: rest)) := by
      rw [respBulkReply, ← hpayload]
      simp [crlf]
    have hbulk : readBulk value.length (value ++ 13 :: 10 :: rest) =
        some (.bulk (some value), rest) := by
      rw [readBulk, if_neg (by omega)]
      simp only [Int.toNat_natCast, take_crlf, drop_crlf, List.take_left, Int.natCast_nonneg,
        and_self, if_true]
    rw [hreply, readReply, readCrlfLine_of_notMem hline]
    simp [hread, hbulk]

/-- The bytes that tell what kind of value follows. -/
def isReplyByte (c : UInt8) : Bool :=
  decide (c = 43) || decide (c = 45) || decide (c = 58) || decide (c = 36)

/-- What starts with another byte is no reply. -/
theorem not_oneReply {reply : Str} (h : reply.head?.any isReplyByte = false) :
    ¬ OneReply reply := by
  rintro ⟨v, hv⟩
  have hempty := hv []
  rw [List.append_nil] at hempty
  cases reply with
  | nil => cases hempty
  | cons c reply =>
    have hc : isReplyByte c = false := h
    simp only [isReplyByte, Bool.or_eq_false_iff, decide_eq_false_iff_not] at hc
    obtain ⟨⟨⟨h43, h45⟩, h58⟩, h36⟩ := hc
    rw [readReply] at hempty
    split at hempty
    · cases hempty
    · simp [h43, h45, h58, h36] at hempty

/-! ## The parser -/

theorem argsErrors_clean : ∀ e ∈ argsErrors, e.all cleanByte = true := by
  decide +kernel

theorem parseArgs_protocol (args : List Str) (protocol : ProtocolType) :
    (parseArgs args protocol).protocol = protocol :=
  parseArgs_holds (P := fun r => r.protocol = protocol) (fun _ => rfl) (fun _ _ => rfl)
    (fun _ _ _ _ _ => rfl) fun _ hprotocol _ _ => hprotocol

/-- Only a frame that starts with a star is taken for RESP. -/
theorem parseRequest_resp {line : Str} (h : (parseRequest line).protocol = .resp) :
    parseRequest line = parseRespRequest line := by
  unfold parseRequest at h ⊢
  split at h
  · next hstar => rw [if_pos hstar]
  · exfalso
    split at h
    · cases h
    · simp only at h
      split at h
      · unfold parsePutLine at h
        split at h
        · cases h
        · simp only at h
          split at h
          · cases h
          · rw [parseArgs_protocol] at h
            cases h
      · rw [parseArgs_protocol] at h
        cases h

/-- A line that does not start with a star announces nothing. -/
theorem affords_of_text {room : Nat} {line : Str} (h : (parseRequest line).protocol = .text) :
    Affords room line := by
  have hstar : line.head? ≠ some 42 := by
    intro hstar
    rw [parseRequest, if_pos hstar, parseRespRequest] at h
    split at h
    · cases h
    · rw [parseArgs_protocol] at h
      cases h
  rw [affords_iff, reservedArgs, if_neg hstar]
  intro n hn
  cases hn

/-- A request in RESP is a command, or is refused with a message without a
line end. -/
theorem parseRequest_resp_cases {line : Str} (h : (parseRequest line).protocol = .resp) :
    (parseRequest line).error = [] ∧ (parseRequest line).type ≠ .unknown ∨
      (parseRequest line).error ≠ [] ∧ (parseRequest line).error.all cleanByte = true ∧
        (parseRequest line).type = .unknown := by
  have hnonempty : ∀ e ∈ invalidResp :: argsErrors, e ≠ [] := by decide +kernel
  rw [parseRequest_resp h, parseRespRequest]
  split
  · exact Or.inr ⟨hnonempty _ List.mem_cons_self, all_str (by decide +kernel), rfl⟩
  · next args _ =>
    rcases parseArgs_reported args .resp with haccepted | ⟨herror, htype⟩
    · exact Or.inl haccepted
    · exact Or.inr ⟨hnonempty _ (List.mem_cons_of_mem _ herror), argsErrors_clean _ herror, htype⟩

/-! ## The store -/

/-- The requests that are answered before their protocol is looked at. -/
def CommandType.AnsweredInText (type : CommandType) : Prop :=
  type ∈ [CommandType.raftRequestVote, .raftAppendEntries, .raftInstallSnapshot, .raftStatus,
    .metrics]

instance (type : CommandType) : Decidable type.AnsweredInText :=
  inferInstanceAs (Decidable (type ∈ _))

theorem answer_resp {r : Request} (h : r.protocol = .resp) (resp text : Str) :
    r.answer resp text = resp := by
  rw [Request.answer, h]

section Local

variable {env : LocalEnv} {now : Int} {s : Store} {r : Request} (hresp : r.protocol = .resp)
include hresp

theorem oneReply_executePut : OneReply (executePut env now s r).reply := by
  simp only [executePut, answer_resp hresp]
  generalize (if 0 < r.ttlSeconds then s.putTtl now r.key r.value r.ttlSeconds
    else s.put now r.key r.value) = p
  split
  · exact oneReply_simple (all_str (by decide +kernel))
  · exact oneReply_respError (all_str (by decide +kernel))

theorem oneReply_executeGet : OneReply (executeGet env now s r).reply := by
  simp only [executeGet, answer_resp hresp]
  exact oneReply_bulk _

theorem oneReply_executeDel : OneReply (executeDel env now s r).reply := by
  simp only [executeDel, answer_resp hresp]
  exact oneReply_integer _

theorem oneReply_executeExists : OneReply (executeExists now s r).reply := by
  simp only [executeExists, answer_resp hresp]
  exact oneReply_integer _

theorem oneReply_executeExpire : OneReply (executeExpire env now s r).reply := by
  simp only [executeExpire, answer_resp hresp]
  exact oneReply_integer _

theorem oneReply_executeTtl : OneReply (executeTtl now s r).reply := by
  simp only [executeTtl, answer_resp hresp]
  exact oneReply_integer _

theorem oneReply_executeLocal (htext : ¬ r.type.AnsweredInText) (hknown : r.type ≠ .unknown) :
    OneReply (executeLocal env now s r).reply := by
  unfold executeLocal
  cases htype : r.type with
  | ping =>
    simp only [answer_resp hresp]
    exact oneReply_simple (all_str (by decide +kernel))
  | put | replicaPut | raftPut => exact oneReply_executePut hresp
  | get | replicaGet => exact oneReply_executeGet hresp
  | del | replicaDel | raftDel => exact oneReply_executeDel hresp
  | «exists» => exact oneReply_executeExists hresp
  | expire | replicaExpire | raftExpire => exact oneReply_executeExpire hresp
  | ttl => exact oneReply_executeTtl hresp
  | raftRequestVote | raftAppendEntries | raftStatus | raftInstallSnapshot | metrics =>
    rw [htype] at htext
    exact absurd (by decide) htext
  | unknown => exact absurd htype hknown

end Local

/-! ## The line -/

/-- A line that starts with a word is no reply. -/
theorem not_oneReply_str {l : List Char} {rest : Str} (hne : bytes l ≠ [])
    (hhead : (bytes l).head?.any isReplyByte = false) :
    ¬ OneReply (str (String.ofList l) ++ rest) := by
  rw [str_ofList]
  refine not_oneReply ?_
  rw [List.head?_append_of_ne_nil _ hne]
  exact hhead

section Line

variable {now : Int} {s : KVServer} {env : LineEnv} {m : Metrics} {forwarded : Option Str}
  {line : Str}

theorem not_oneReply_vote (reply : Router.VoteReply) : ¬ OneReply reply.text := by
  rw [Router.VoteReply.text, wordLine, List.append_assoc]
  exact not_oneReply_str (by decide) (by decide)

theorem not_oneReply_heartbeat (reply : Router.HeartbeatReply) : ¬ OneReply reply.text := by
  refine not_oneReply ?_
  rw [Router.HeartbeatReply.text, List.head?_append_of_ne_nil _ (by decide)]
  decide

theorem not_oneReply_append (reply : AppendReply) : ¬ OneReply reply.text := by
  rw [AppendReply.text, wordLine, List.append_assoc]
  exact not_oneReply_str (by decide) (by decide)

theorem not_oneReply_install (reply : InstallReply) : ¬ OneReply reply.text := by
  rw [InstallReply.text, wordLine, List.append_assoc]
  exact not_oneReply_str (by decide) (by decide)

theorem not_oneReply_status (s : KVServer) : ¬ OneReply (textResponse s.statusText) := by
  have hne : s.statusText ≠ [] := by
    simp only [KVServer.statusText, List.append_assoc]
    exact List.append_ne_nil_of_left_ne_nil (str_ne_nil (by decide)) _
  rw [textResponse, if_neg hne, KVServer.statusText]
  simp only [List.append_assoc]
  exact not_oneReply_str (by decide) (by decide)

theorem not_oneReply_metrics (now : Int) (s : KVServer) (raftEnabled : Bool) (m : Metrics) :
    ¬ OneReply (s.metricsResponse now raftEnabled m) := by
  rw [KVServer.metricsResponse, List.flatMap_cons, List.append_assoc]
  exact not_oneReply_str (by decide) (by decide)

theorem not_oneReply_requestReply {r : Request} (herror : r.error = [])
    (htext : r.type.AnsweredInText) : ¬ OneReply (s.requestReply now env m forwarded r) := by
  simp only [KVServer.requestReply, herror, ne_eq, not_true_eq_false, if_false]
  simp only [CommandType.AnsweredInText, List.mem_cons, List.not_mem_nil, or_false] at htext
  rcases htext with htype | htype | htype | htype | htype
  · simp only [htype]
    exact not_oneReply_vote _
  · simp only [htype]
    split
    · exact not_oneReply_append _
    · exact not_oneReply_heartbeat _
  · simp only [htype]
    exact not_oneReply_install _
  · simp only [htype]
    exact not_oneReply_status s
  · simp only [htype]
    exact not_oneReply_metrics now s _ m

/-- Without a cluster all other commands go to the local store. -/
theorem requestReply_standalone {r : Request} (herror : r.error = [])
    (htext : ¬ r.type.AnsweredInText) :
    s.requestReply now .standalone m forwarded r =
      (executeLocal LineEnv.standalone.toLocalEnv now s.store r).reply := by
  simp only [KVServer.requestReply, herror, ne_eq, not_true_eq_false, if_false]
  cases htype : r.type with
  | raftRequestVote | raftAppendEntries | raftStatus | raftInstallSnapshot | metrics =>
    rw [htype] at htext
    exact absurd (by decide) htext
  | _ => rfl

theorem oneReply_requestReply (hresp : (parseRequest line).protocol = .resp)
    (htext : ¬ (parseRequest line).type.AnsweredInText) :
    OneReply (s.requestReply now .standalone m forwarded (parseRequest line)) := by
  rcases parseRequest_resp_cases hresp with ⟨herror, hknown⟩ | ⟨herror, hclean, -⟩
  · rw [requestReply_standalone herror htext]
    exact oneReply_executeLocal hresp htext hknown
  · rw [KVServer.requestReply, if_pos herror, answer_resp hresp]
    exact oneReply_respError hclean

theorem oneReply_requestReply_iff (hresp : (parseRequest line).protocol = .resp) :
    OneReply (s.requestReply now .standalone m forwarded (parseRequest line)) ↔
      ¬ (parseRequest line).type.AnsweredInText := by
  refine ⟨fun hone htext => ?_, oneReply_requestReply hresp⟩
  rcases parseRequest_resp_cases hresp with ⟨herror, -⟩ | ⟨-, -, htype⟩
  · exact not_oneReply_requestReply herror htext hone
  · rw [htype] at htext
    exact absurd htext (by decide)

end Line

/-! ## Pipelined requests -/

theorem readReplies_flatten {replies : List Str} (h : ∀ reply ∈ replies, OneReply reply) :
    ∃ values, readReplies replies.length replies.flatten = some values := by
  induction replies with
  | nil => exact ⟨[], rfl⟩
  | cons reply replies ih =>
    obtain ⟨v, hv⟩ := h reply List.mem_cons_self
    obtain ⟨values, hvalues⟩ := ih fun r hr => h r (List.mem_cons_of_mem _ hr)
    refine ⟨v :: values, ?_⟩
    rw [List.flatten_cons, List.length_cons, readReplies, hv]
    simp only [hvalues, Option.map_some]

/-- The arguments can be reserved, and the answer is no text. -/
structure RepliedInResp (room : Nat) (line : Str) : Prop where
  affords : Affords room line
  resp : ¬ (parseRequest line).type.AnsweredInText

instance (room : Nat) (line : Str) : Decidable (RepliedInResp room line) :=
  decidable_of_iff (Affords room line ∧ ¬ (parseRequest line).type.AnsweredInText)
    ⟨fun h => ⟨h.1, h.2⟩, fun h => ⟨h.1, h.2⟩⟩

theorem replies_eq_ok {room : Nat} {s : KVServer} {m : Metrics} {requests : List (Int × Str)}
    (h : ∀ p ∈ requests, (parseRequest p.2).protocol = .resp ∧ RepliedInResp room p.2) :
    ∃ replies, s.replies room .standalone m requests = .ok replies ∧
      replies.length = requests.length ∧ ∀ reply ∈ replies, OneReply reply := by
  induction requests generalizing s with
  | nil => exact ⟨[], rfl, rfl, fun _ h => absurd h List.not_mem_nil⟩
  | cons p requests ih =>
    obtain ⟨now, line⟩ := p
    obtain ⟨hresp, hline⟩ := h _ List.mem_cons_self
    obtain ⟨replies, hreplies, hlength, hone⟩ :=
      ih (s := s.processRequest now .standalone (parseRequest line))
        fun q hq => h q (List.mem_cons_of_mem _ hq)
    refine ⟨s.requestReply now .standalone m none (parseRequest line) :: replies, ?_,
      congrArg (· + 1) hlength, ?_⟩
    · rw [KVServer.replies, lineReply_eq_ok_iff.2 ⟨hline.affords, rfl⟩,
        processRequestLine_eq_ok_iff.2 ⟨hline.affords, rfl⟩]
      simp only [bind, Except.bind, hreplies]
    · intro reply hmem
      rcases List.mem_cons.mp hmem with rfl | hmem
      · exact oneReply_requestReply hresp hline.resp
      · exact hone reply hmem

/-- A request in RESP gets one reply, whatever the store holds, exactly if the
arguments it announces can be reserved and it is not one of those answered in
text. A client that pipelines such requests reads as many values as it has sent
requests. -/
theorem resp_reply_iff (room : Nat) (s : KVServer) (m : Metrics) :
    (∀ now line, (parseRequest line).protocol = .resp →
      ((∃ reply, s.lineReply room now .standalone m none line = .ok reply ∧ OneReply reply) ↔
        RepliedInResp room line)) ∧
    ∀ requests : List (Int × Str),
      (∀ p ∈ requests, (parseRequest p.2).protocol = .resp ∧ RepliedInResp room p.2) →
      ∃ replies values, s.replies room .standalone m requests = .ok replies ∧
        readReplies requests.length replies.flatten = some values := by
  constructor
  · intro now line hresp
    constructor
    · rintro ⟨reply, hreply, hone⟩
      obtain ⟨hroom, rfl⟩ := lineReply_eq_ok_iff.1 hreply
      exact ⟨hroom, (oneReply_requestReply_iff hresp).1 hone⟩
    · intro h
      exact ⟨_, lineReply_eq_ok_iff.2 ⟨h.affords, rfl⟩, oneReply_requestReply hresp h.resp⟩
  · intro requests h
    obtain ⟨replies, hreplies, hlength, hone⟩ := replies_eq_ok (s := s) (m := m) h
    obtain ⟨values, hvalues⟩ := readReplies_flatten hone
    exact ⟨replies, values, hreplies, hlength ▸ hvalues⟩

/-- A server without a cluster, and nothing stored yet. -/
def loneServer : KVServer :=
  KVServer.fresh { localId := str "n", localPort := 1, allNodes := [] } (.memory {}) 1

theorem resp_reply_iff_ping :
    ((∃ reply, loneServer.lineReply 1 1 .standalone {} none (respEncode [str "PING"]) =
          .ok reply ∧ OneReply reply) ↔ RepliedInResp 1 (respEncode [str "PING"])) ∧
      ∃ replies values, loneServer.replies 1 .standalone {} [(1, respEncode [str "PING"])] =
        .ok replies ∧ readReplies 1 replies.flatten = some values :=
  ⟨(resp_reply_iff 1 loneServer {}).1 1 _ (by decide +kernel),
    (resp_reply_iff 1 loneServer {}).2 [(1, respEncode [str "PING"])] (by decide +kernel)⟩

/-- A client asks for the metrics in RESP. -/
theorem metrics_answered_in_text :
    (parseRequest (respEncode [str "METRICS"])).protocol = .resp ∧
      ∃ reply, loneServer.lineReply 1 1 .standalone {} none (respEncode [str "METRICS"]) =
        .ok reply ∧ ¬ OneReply reply := by
  refine ⟨by decide +kernel, _, lineReply_eq_ok_iff.2 ⟨by decide +kernel, rfl⟩, ?_⟩
  exact not_oneReply_requestReply (by decide +kernel) (by decide +kernel)

end TinyKV
