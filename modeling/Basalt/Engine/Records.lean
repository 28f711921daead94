import Basalt.Engine.StateMachine

/-!
# The records of the state machine

While no command writes a reserved key, the reserved range holds the applied
record and the session records of the machine and nothing else, and a restart
reads the machine back from it.
-/

namespace Basalt
namespace Engine

open Lib Wal Raft Std

/-!
## The keys
-/

theorem reserved_appliedKey : Reserved appliedKey :=
  ⟨_, rfl⟩

theorem reserved_sessionKey (client : UInt64) : Reserved (sessionKey client) :=
  ⟨_, (List.append_assoc _ _ _).symm⟩

theorem length_sessionKey (client : UInt64) :
    (sessionKey client).length = sessionPrefix.length + 8 := by
  rw [sessionKey, List.length_append, putBE_length]

theorem sessionKey_ne_appliedKey (client : UInt64) : sessionKey client ≠ appliedKey := by
  intro heq
  have hlen := congrArg List.length heq
  rw [length_sessionKey] at hlen
  cases hlen

theorem client_sessionKey (client : UInt64) :
    UInt64.ofNat (getBE ((sessionKey client).drop sessionPrefix.length)) = client := by
  rw [sessionKey, List.drop_left' rfl, getBE_putBE client.toNat_lt, UInt64.ofNat_toNat]

theorem sessionKey_inj {c d : UInt64} (h : sessionKey c = sessionKey d) : c = d := by
  rw [← client_sessionKey c, ← client_sessionKey d, h]

theorem toNat_lt_of_not_noDedup {client : UInt64} (h : ¬ NoDedup client) :
    client.toNat < 9223372036854775808 := by
  have hland : client.toNat &&& 9223372036854775808 = 0 := by
    have hzero := congrArg UInt64.toNat (not_not.mp h)
    rw [UInt64.toNat_and] at hzero
    exact hzero
  have hbit := congrArg (fun x => Nat.testBit x 63) hland
  rw [Nat.testBit_and, Nat.zero_testBit, Bool.and_eq_false_iff] at hbit
  have hlt := client.toNat_lt
  rcases hbit with hbit | hbit
  · rw [Nat.testBit_eq_decide_div_mod_eq] at hbit
    have hdiv := of_decide_eq_false hbit
    lia
  · cases hbit

theorem inRange_sessionKey {client : UInt64} (h : ¬ NoDedup client) :
    inRange sessionPrefix (sessionPrefix ++ [0xff]) (sessionKey client) = true := by
  have hlt := toNat_lt_of_not_noDedup h
  rw [sessionKey, putBE_succ]
  apply inRange_append
  have hbyte : (UInt8.ofNat (client.toNat / rangeLE 7)).toNat < 255 := by
    rw [UInt8.toNat_ofNat']
    have hrange : rangeLE 7 = 72057594037927936 := rfl
    rw [hrange]
    lia
  exact compare_eq_lt.mpr hbyte

/-!
## The invariant
-/

structure Kept (sm : StateMachine) : Prop where
  index_lt : sm.applied < rangeLE 8
  term_lt : sm.term < rangeLE 8
  applied : sm.db[appliedKey]? =
    if sm.applied = 0 then none else some (appliedRecord sm.applied sm.term)
  start : sm.applied = 0 -> sm.term = 0
  session : forall client, sm.db[sessionKey client]? =
    (sm.sessions[client]?).map fun seq => putLE 8 seq.toNat
  clients : forall client, client ∈ sm.sessions -> ¬ NoDedup client
  only : forall key, Reserved key -> key ∈ sm.db ->
    key = appliedKey ∨ exists client, key = sessionKey client

theorem Kept.init : Kept {} where
  index_lt := by decide
  term_lt := by decide
  applied := ExtTreeMap.getElem?_empty
  start := fun _ => rfl
  session := fun client => by
    rw [ExtTreeMap.getElem?_empty, ExtTreeMap.getElem?_empty]
    rfl
  clients := fun client h => absurd h ExtTreeMap.not_mem_empty
  only := fun key _ h => absurd h ExtTreeMap.not_mem_empty

theorem Kept.unique {sm sm' : StateMachine} (h : Kept sm) (h' : Kept sm')
    (happlied : sm.applied = sm'.applied) (hterm : sm.term = sm'.term)
    (hsessions : sm.sessions = sm'.sessions) {key : Bytes} (hkey : Reserved key) :
    sm.db[key]? = sm'.db[key]? := by
  by_cases hknown : key = appliedKey ∨ exists client, key = sessionKey client
  · rcases hknown with rfl | ⟨client, rfl⟩
    · rw [h.applied, h'.applied, happlied, hterm]
    · rw [h.session, h'.session, hsessions]
  · have hnot : key ∉ sm.db := fun hmem => hknown (h.only key hkey hmem)
    have hnot' : key ∉ sm'.db := fun hmem => hknown (h'.only key hkey hmem)
    rw [ExtTreeMap.getElem?_eq_none hnot, ExtTreeMap.getElem?_eq_none hnot']

/-!
## Recovery
-/

theorem readApplied_of_kept {sm : StateMachine} (h : Kept sm) :
    readApplied sm.db = .ok (sm.applied, sm.term) := by
  rw [readApplied, h.applied]
  by_cases hzero : sm.applied = 0
  · rw [if_pos hzero, h.start hzero, hzero]
  · rw [if_neg hzero]
    have hlen : (appliedRecord sm.applied sm.term).length = 16 := by
      rw [appliedRecord, List.length_append, putLE_length, putLE_length]
    dsimp only
    rw [if_neg (not_not.mpr hlen), appliedRecord, List.take_left' (putLE_length 8 _),
      List.drop_left' (putLE_length 8 _), getLE_putLE h.index_lt, getLE_putLE h.term_lt]

theorem foldlM_readSession {l : List (Bytes × Bytes)} {table : UInt64 -> Option UInt64}
    (h : forall x, x ∈ l -> exists client seq, x.1 = sessionKey client ∧
      x.2 = putLE 8 seq.toNat ∧ table client = some seq)
    (m : ExtTreeMap UInt64 UInt64) :
    exists m', l.foldlM readSession m = .ok m' ∧
      forall client, m'[client]? =
        if sessionKey client ∈ l.map Prod.fst then table client else m[client]? := by
  induction l generalizing m with
  | nil => exact ⟨m, rfl, fun client => (if_neg List.not_mem_nil).symm⟩
  | cons x l ih =>
      rcases h x List.mem_cons_self with ⟨c, s, hkey, hval, htable⟩
      rcases ih (fun y hy => h y (List.mem_cons_of_mem x hy)) (m.insert c s) with
        ⟨m', hfold, hget⟩
      have hread : readSession m x = .ok (m.insert c s) := by
        rw [readSession, if_neg, hkey, hval, client_sessionKey, ofNat_getLE]
        rw [hkey, hval, length_sessionKey, putLE_length]
        rintro (hne | hne)
        · exact hne rfl
        · exact hne rfl
      refine ⟨m', ?_, ?_⟩
      · rw [List.foldlM_cons, hread]
        exact hfold
      · intro client
        rw [hget client, List.map_cons, ExtTreeMap.getElem?_insert]
        by_cases hl : sessionKey client ∈ l.map Prod.fst
        · rw [if_pos hl, if_pos (List.mem_cons_of_mem _ hl)]
        · rw [if_neg hl]
          by_cases hc : c = client
          · subst hc
            rw [if_pos ReflCmp.compare_self, hkey, if_pos List.mem_cons_self, htable]
          · rw [if_neg (fun heq => hc (LawfulEqCmp.eq_of_compare heq)), if_neg]
            intro hmem
            rcases List.mem_cons.mp hmem with heq | hmem
            · rw [hkey] at heq
              exact hc (sessionKey_inj heq).symm
            · exact hl hmem

theorem scan_sessions_of_kept {sm : StateMachine} (h : Kept sm) {key value : Bytes} :
    (key, value) ∈ scan sm.db sessionPrefix (sessionPrefix ++ [0xff]) <->
      exists client seq, key = sessionKey client ∧ value = putLE 8 seq.toNat ∧
        sm.sessions[client]? = some seq := by
  rw [mem_scan]
  constructor
  · rintro ⟨hget, hin⟩
    have hpre := isPre_of_inRange hin
    have hreserved : Reserved key := List.IsPrefix.trans ⟨_, rfl⟩ hpre
    have hmem : key ∈ sm.db := ExtTreeMap.mem_iff_isSome_getElem?.mpr (by rw [hget]; rfl)
    rcases h.only key hreserved hmem with rfl | ⟨client, rfl⟩
    · exact absurd hpre (by decide)
    · rw [h.session] at hget
      rcases Option.map_eq_some_iff.mp hget with ⟨seq, hseq, hval⟩
      exact ⟨client, seq, rfl, hval.symm, hseq⟩
  · rintro ⟨client, seq, rfl, rfl, hseq⟩
    have hmem : client ∈ sm.sessions :=
      ExtTreeMap.mem_iff_isSome_getElem?.mpr (by rw [hseq]; rfl)
    refine ⟨?_, inRange_sessionKey (h.clients client hmem)⟩
    rw [h.session, hseq]
    rfl

theorem newStateMachine_of_kept {sm : StateMachine} (h : Kept sm) :
    newStateMachine sm.db = .ok sm := by
  have hrecords : forall x, x ∈ scan sm.db sessionPrefix (sessionPrefix ++ [0xff]) ->
      exists client seq, x.1 = sessionKey client ∧ x.2 = putLE 8 seq.toNat ∧
        sm.sessions[client]? = some seq :=
    fun x hx => (scan_sessions_of_kept h).mp hx
  rcases foldlM_readSession hrecords ∅ with ⟨m, hfold, hget⟩
  have hm : m = sm.sessions := by
    apply ExtTreeMap.ext_getElem?
    intro client
    rw [hget client]
    cases hseq : sm.sessions[client]? with
    | none => rw [ExtTreeMap.getElem?_empty, ite_self]
    | some seq =>
        rw [if_pos]
        apply List.mem_map.mpr
        exact ⟨(sessionKey client, putLE 8 seq.toNat),
          (scan_sessions_of_kept h).mpr ⟨client, seq, rfl, rfl, hseq⟩, rfl⟩
  rw [newStateMachine, readApplied_of_kept h]
  change (do
    let sessions <- (scan sm.db sessionPrefix (sessionPrefix ++ [0xff])).foldlM readSession ∅
    pure
      { db := sm.db, applied := sm.applied, term := sm.term, sessions := sessions }) =
    Except.ok sm
  rw [hfold, hm]
  rfl

/-!
## Application
-/

def Unreserved (ops : List Op) : Prop :=
  forall op, op ∈ ops -> ¬ Reserved op.userKey

instance (ops : List Op) : Decidable (Unreserved ops) :=
  inferInstanceAs (Decidable (forall op, op ∈ ops -> _))

theorem getElem?_insert_of_ne {α β : Type} [Ord α] [TransOrd α] [LawfulEqOrd α]
    {m : ExtTreeMap α β} {a b : α} {v : β} (h : a ≠ b) : (m.insert a v)[b]? = m[b]? := by
  rw [ExtTreeMap.getElem?_insert, if_neg fun heq => h (LawfulEqCmp.eq_of_compare heq)]

theorem getElem?_applyOp_of_ne {db : Store} {op : Op} {key : Bytes}
    (h : op.userKey ≠ key) : (Store.applyOp db op)[key]? = db[key]? := by
  cases op with
  | put userKey value => exact getElem?_insert_of_ne h
  | delete userKey =>
      have hne : userKey ≠ key := h
      rw [Store.applyOp, ExtTreeMap.getElem?_erase,
        if_neg fun heq => hne (LawfulEqCmp.eq_of_compare heq)]

theorem getElem?_applyRaft_of_unreserved {ops : List Op} (h : Unreserved ops) (db : Store)
    {key : Bytes} (hkey : Reserved key) : (Store.applyRaft db ops)[key]? = db[key]? := by
  induction ops generalizing db with
  | nil => rfl
  | cons op ops ih =>
      rw [Store.applyRaft, List.foldl_cons]
      change (Store.applyRaft (Store.applyOp db op) ops)[key]? = db[key]?
      rw [ih (fun o ho => h o (List.mem_cons_of_mem op ho)), getElem?_applyOp_of_ne]
      rintro rfl
      exact h op List.mem_cons_self hkey

namespace Kept

variable {sm : StateMachine}

theorem congr (h : Kept sm) {db : Store}
    (hdb : forall key, Reserved key -> db[key]? = sm.db[key]?) :
    Kept { sm with db := db } :=
  { h with
    applied := (hdb appliedKey reserved_appliedKey).trans h.applied
    session := fun client =>
      (hdb (sessionKey client) (reserved_sessionKey client)).trans (h.session client)
    only := fun key hkey hmem => by
      rw [ExtTreeMap.mem_iff_isSome_getElem?, hdb key hkey,
        ← ExtTreeMap.mem_iff_isSome_getElem?] at hmem
      exact h.only key hkey hmem }

theorem setSession (h : Kept sm) {client : UInt64} (hclient : ¬ NoDedup client)
    (seq : UInt64) :
    Kept
      { sm with
        db := sm.db.insert (sessionKey client) (putLE 8 seq.toNat)
        sessions := sm.sessions.insert client seq } :=
  { h with
    applied := (getElem?_insert_of_ne (sessionKey_ne_appliedKey client)).trans h.applied
    session := fun c => by
      by_cases hc : client = c
      · subst hc
        rw [ExtTreeMap.getElem?_insert_self, ExtTreeMap.getElem?_insert_self]
        rfl
      · rw [getElem?_insert_of_ne hc, getElem?_insert_of_ne fun heq => hc (sessionKey_inj heq),
          h.session]
    clients := fun c hc => by
      rcases ExtTreeMap.mem_insert.mp hc with heq | hc
      · rw [← LawfulEqCmp.eq_of_compare heq]
        exact hclient
      · exact h.clients c hc
    only := fun key hkey hmem => by
      rcases ExtTreeMap.mem_insert.mp hmem with heq | hmem
      · exact Or.inr ⟨client, (LawfulEqCmp.eq_of_compare heq).symm⟩
      · exact h.only key hkey hmem }

theorem setApplied (h : Kept sm) {index term : Nat} (hpos : index ≠ 0)
    (hindex : index < rangeLE 8) (hterm : term < rangeLE 8) :
    Kept
      { sm with
        db := sm.db.insert appliedKey (appliedRecord index term)
        applied := index
        term := term } :=
  { h with
    index_lt := hindex
    term_lt := hterm
    applied := by rw [ExtTreeMap.getElem?_insert_self, if_neg hpos]
    start := fun hzero => absurd hzero hpos
    session := fun client =>
      (getElem?_insert_of_ne (sessionKey_ne_appliedKey client).symm).trans (h.session client)
    only := fun key hkey hmem => by
      rcases ExtTreeMap.mem_insert.mp hmem with heq | hmem
      · exact Or.inl (LawfulEqCmp.eq_of_compare heq).symm
      · exact h.only key hkey hmem }

/-- An entry keeps the records if its command writes no reserved key. -/
theorem commit (h : Kept sm) {e : Entry} {cmd : Option Command} (hpos : e.index ≠ 0)
    (hindex : e.index < rangeLE 8) (hterm : e.term < rangeLE 8)
    (hops : forall c, cmd = some c -> Unreserved c.batch.ops) : Kept (sm.commit e cmd) := by
  have hwrites : forall ops, Unreserved ops ->
      Kept { sm with db := Store.applyRaft sm.db ops } :=
    fun ops hun => h.congr fun key hkey => getElem?_applyRaft_of_unreserved hun sm.db hkey
  have hskip : Kept { sm with db := Store.applyRaft sm.db [] } :=
    hwrites [] fun op hop => absurd hop List.not_mem_nil
  rw [StateMachine.commit, Store.applyRaft, List.foldl_append]
  cases cmd with
  | none => exact hskip.setApplied hpos hindex hterm
  | some c =>
      have hun := hops c rfl
      rw [StateMachine.effect]
      by_cases hdedup : NoDedup c.clientID
      · rw [if_pos hdedup]
        exact (hwrites _ hun).setApplied hpos hindex hterm
      · rw [if_neg hdedup]
        by_cases hseq : sm.session c.clientID < c.seq
        · rw [if_pos hseq, List.foldl_append]
          exact ((hwrites _ hun).setSession hdedup c.seq).setApplied hpos hindex hterm
        · rw [if_neg hseq]
          exact hskip.setApplied hpos hindex hterm

end Kept

end Engine
end Basalt
