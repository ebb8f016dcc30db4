import QkdEkm.Ekm.Binding
import QkdEkm.Qkd.Clients
import QkdEkm.Qkdsim.Retrieve

/-!
# Delivery — both ends of a key id

The simulator, the EKM that pulls from it, the servers that ask the EKM
for keys and the clients that ask the simulator for the same keys, as
one system. The two sides never exchange material: a key travels from
the simulator through the pool to a server, and from the simulator
straight to a client. Whatever is under way on either path was minted
under its identifier, and the simulator answers an identifier once.
-/

namespace QkdEkm.Qkd

open QkdEkm.Common QkdEkm.Lib QkdEkm.Ekm QkdEkm.Qkdsim

/-! ## The system -/

/-- The parts, and the client that the EKM calls the simulator with. -/
structure NetConfig where
  sim : SimConfig
  ekm : Config
  client : Etsi014Client := {}

/-- The simulator, the EKM process, and the answer on its way to the
thread that pulls. -/
structure Net where
  sim : KeyStore := {}
  ekm : Process
  wire : Option Qkdsim.Response := none

/-- What happens next: the source is switched; anyone calls `enc_keys`
or `dec_keys`; the simulator handles the call of the thread that pulls;
that thread takes its next section, and what it waits for arrives or
does not; the EKM handles a request, expires a deque, or is restarted. -/
inductive NetAct
  | source (authorization : Option String) (body : Body)
  | enc (req : EncRequest)
  | dec (req : DecRequest)
  | call
  | pull (arrives : Bool) (now : Time)
  | request (r : Request) (fates : List Fate) (nonces : List Nonce)
  | expire (peer : String) (now : Time)
  | restart

inductive NetOut
  | silent
  | sim (resp : Qkdsim.Response)
  | ekm (resp : Option Ekm.Response)

/-- Whether the thread that pulls waits for an answer. -/
def waits : Pull → Bool
  | .asking _ _ _ => true
  | _ => false

section

variable (aead : Aead) (cfg : NetConfig)

namespace Net

/-- A step of the EKM. An answer that nobody waits for is lost. -/
def ekmStep (net : Net) (a : Act) : Net × NetOut :=
  let (p, resp) := Ekm.step aead cfg.ekm net.ekm a
  ({ net with ekm := p, wire := if waits p.pull then net.wire else none }, .ekm resp)

def step (net : Net) : NetAct → Net × NetOut
  | .source authorization body =>
    let (sim, resp) := simSource cfg.sim net.sim authorization body
    ({ net with sim }, .sim resp)
  | .enc req =>
    let (sim, resp) := encKeys cfg.sim net.sim req
    ({ net with sim }, .sim resp)
  | .dec req =>
    let (sim, resp) := decKeys cfg.sim net.sim req
    ({ net with sim }, .sim resp)
  | .call =>
    match net.ekm.pull, net.wire with
    | .asking peer number _, none =>
      let (sim, resp) := encKeys cfg.sim net.sim (cfg.client.encRequest peer number)
      ({ net with sim, wire := some resp }, .silent)
    | _, _ => (net, .silent)
  | .pull arrives now =>
    net.ekmStep aead cfg
      (.pull (Etsi014Client.encKeys (if arrives then net.wire else none)) now)
  | .request r fates nonces => net.ekmStep aead cfg (.request r fates nonces)
  | .expire peer now => net.ekmStep aead cfg (.expire peer now)
  | .restart => net.ekmStep aead cfg .restart

/-- A new simulator, and an EKM over any database. -/
def start (store : Store) : Net := { ekm := boot store }

end Net

end

/-- What a server obtains in a step. -/
def obtained (m : Moment Net NetAct NetOut) : List Ekm.Key :=
  match m.act, m.out with
  | .request (.new _ _) _ _, .ekm resp => (ekmClientNew resp).toList
  | _, _ => []

/-- The entries of the answer to `dec_keys`. -/
def dispensed (m : Moment Net NetAct NetOut) : List (String × String) :=
  match m.act, m.out with
  | .dec _, .sim ⟨200, .keys keys⟩ => keys
  | _, _ => []

/-- What a client makes of that answer. -/
def retrieved (m : Moment Net NetAct NetOut) : List Ekm.Key :=
  match m.act, m.out with
  | .dec _, .sim resp => (Etsi014Client.keysOf (some resp)).toOption.getD []
  | _, _ => []

/-! ## What the simulator minted -/

/-- The simulator minted this unit. -/
def Minted (sim : KeyStore) (unit : Ekm.Key) : Prop := ∃ key ∈ sim.keys.rows, unitOf key = unit

/-- Every identifier was drawn. -/
def Numbered (draws : Draws) (sim : KeyStore) : Prop :=
  ∀ key ∈ sim.keys.rows, ∃ i < sim.issuedCount, (draws i).1 = key.keyId

/-- Nothing minted is forgotten, nothing retrieved becomes pending. -/
structure Grows (sim sim' : KeyStore) : Prop where
  keys : sim.keys.rows ⊆ sim'.keys.rows
  consumedIds : sim.consumedIds ⊆ sim'.consumedIds

theorem Grows.refl (sim : KeyStore) : Grows sim sim := ⟨List.Subset.refl _, Finset.Subset.refl _⟩

theorem Grows.trans {sim sim' sim'' : KeyStore} (h : Grows sim sim') (h' : Grows sim' sim'') :
    Grows sim sim'' :=
  ⟨fun _ hkey => h'.keys (h.keys hkey), fun _ hid => h'.consumedIds (h.consumedIds hid)⟩

theorem Minted.grow {sim sim' : KeyStore} {unit : Ekm.Key} (h : Minted sim unit)
    (hg : Grows sim sim') : Minted sim' unit := by
  obtain ⟨key, hkey, hunit⟩ := h
  exact ⟨key, hg.keys hkey, hunit⟩

/-- **An identifier has one unit.** -/
theorem Minted.unique {sim : KeyStore} {unit unit' : Ekm.Key} (h : Minted sim unit)
    (h' : Minted sim unit') (hid : unit'.keyId = unit.keyId) : unit' = unit := by
  obtain ⟨key, hkey, rfl⟩ := h
  obtain ⟨key', hkey', rfl⟩ := h'
  have hget : sim.getById key.keyId = some key := getById_eq_some.mpr ⟨hkey, rfl⟩
  have hget' : sim.getById key.keyId = some key' := getById_eq_some.mpr ⟨hkey', hid⟩
  rw [Option.some.inj (hget.symm.trans hget')]

section

variable {draws : Draws} {sim : KeyStore}

/-- What a call that mints leaves behind. -/
structure Mints (draws : Draws) (sim : KeyStore) (keys : List Qkdsim.Key) (sim' : KeyStore) :
    Prop where
  numbered : Numbered draws sim'
  grows : Grows sim sim'
  minted : ∀ key ∈ keys, key ∈ sim'.keys.rows

theorem newKey_mints (huuid : Function.Injective fun i => (draws i).1) (h : Numbered draws sim)
    (pair : String × String) :
    Mints draws sim [(sim.newKey draws pair).1] (sim.newKey draws pair).2 where
  numbered := by
    intro key hkey
    rcases Table.mem_replace.mp hkey with rfl | ⟨hold, _⟩
    · exact ⟨sim.issuedCount, Nat.lt_succ_self _, rfl⟩
    · obtain ⟨i, hi, hid⟩ := h key hold
      exact ⟨i, Nat.lt_succ_of_lt hi, hid⟩
  grows := by
    refine ⟨fun key hkey => Table.mem_replace.mpr (.inr ⟨hkey, fun hclash => ?_⟩),
      Finset.Subset.refl _⟩
    -- an identifier that is drawn now was not drawn before
    obtain ⟨i, hi, hid⟩ := h key hkey
    have heq : i = sim.issuedCount := huuid (hid.trans hclash)
    omega
  minted := by
    intro key hkey
    exact Table.mem_replace.mpr (.inl (List.mem_singleton.mp hkey))

theorem newKeys_mints (huuid : Function.Injective fun i => (draws i).1) (h : Numbered draws sim)
    (pair : String × String) (number : Nat) :
    Mints draws sim (sim.newKeys draws pair number).1 (sim.newKeys draws pair number).2 := by
  induction number with
  | zero => exact ⟨h, Grows.refl sim, by rintro _ ⟨⟩⟩
  | succ number ih =>
    have hnew := newKey_mints huuid ih.numbered pair
    refine ⟨hnew.numbered, ih.grows.trans hnew.grows, ?_⟩
    intro key hkey
    rcases List.mem_append.mp hkey with hkey | hkey
    · exact hnew.grows.keys (ih.minted key hkey)
    · exact hnew.minted key hkey

/-- A call of `enc_keys` is answered with an error, or with what it mints. -/
theorem encKeys_mints (cfg : SimConfig) (huuid : Function.Injective fun i => (cfg.draws i).1)
    (h : Numbered cfg.draws sim) (req : EncRequest) :
    (∃ e, (encKeys cfg sim req).2 = SimError.answer e ∧
        Mints cfg.draws sim [] (encKeys cfg sim req).1) ∨
      ∃ keys, (encKeys cfg sim req).2 = keysReply keys ∧
        Mints cfg.draws sim keys (encKeys cfg sim req).1 := by
  unfold encKeys
  dsimp only
  split
  · rename_i e _
    exact .inl ⟨e, rfl, h, Grows.refl sim, by rintro _ ⟨⟩⟩
  · rename_i number _
    split
    · have hcounted : Numbered cfg.draws { sim with keyRequests := sim.keyRequests + 1 } := h
      have hmints := newKeys_mints huuid hcounted (masterFor cfg req.slaveSae, req.slaveSae) number
      exact .inr ⟨_, rfl, hmints.numbered, ⟨hmints.grows.keys, hmints.grows.consumedIds⟩,
        hmints.minted⟩
    · exact .inl ⟨.http 503 "source unavailable", rfl, h,
        ⟨List.Subset.refl _, Finset.Subset.refl _⟩, by rintro _ ⟨⟩⟩

/-- A call of `dec_keys` is answered with an error, or with pending keys
that it spends. -/
theorem decKeys_spends (cfg : SimConfig) (sim : KeyStore) (req : DecRequest) :
    (∃ e ids, decKeys cfg sim req = (sim.spendAll ids, SimError.answer e)) ∨
      ∃ keys : List Qkdsim.Key, (∀ key ∈ keys, key ∈ sim.keys.rows ∧ key.keyId ∉ sim.consumedIds) ∧
        (keys.map (·.keyId)).Nodup ∧
        decKeys cfg sim req = (sim.spendAll (keys.map (·.keyId)), keysReply keys) := by
  rcases hreq : requestedIds cfg req with e | keyIds
  · exact .inl ⟨e, [], decKeys_refused hreq⟩
  · by_cases hc : Clean sim keyIds
    · obtain ⟨keys, _, _, hdec⟩ := decKeys_clean hreq hc
      have hstatus : (decKeys cfg sim req).2.status = 200 := by rw [hdec]; rfl
      obtain ⟨keys, _, hkeys, hnodup, hstore, _, hreply⟩ :=
        (hc.spendsWhatItAnswers hreq).answered hstatus
      exact .inr ⟨keys, hkeys, hnodup, Prod.ext hstore hreply⟩
    · obtain ⟨e, ids, _, _, hdec, _⟩ := decKeys_unclean hreq hc
      exact .inl ⟨e, ids, hdec⟩

theorem spendAll_keys (ids : List String) : (sim.spendAll ids).keys = sim.keys := by
  induction ids generalizing sim with
  | nil => rfl
  | cons id ids ih =>
    show ((sim.spend id).spendAll ids).keys = (sim.spend id).keys
    exact ih

theorem spendAll_issuedCount (ids : List String) :
    (sim.spendAll ids).issuedCount = sim.issuedCount := by
  induction ids generalizing sim with
  | nil => rfl
  | cons id ids ih =>
    show ((sim.spend id).spendAll ids).issuedCount = (sim.spend id).issuedCount
    exact ih

theorem spendAll_mints (h : Numbered draws sim) (ids : List String) :
    Mints draws sim [] (sim.spendAll ids) where
  numbered := by
    intro key hkey
    rw [spendAll_keys] at hkey
    rw [spendAll_issuedCount]
    exact h key hkey
  grows := by
    refine ⟨by rw [spendAll_keys]; exact List.Subset.refl _, ?_⟩
    rw [spendAll_consumedIds]
    exact Finset.subset_union_left
  minted := by rintro _ ⟨⟩

end

/-! ## What is under way -/

/-- What holds after the steps `past`. -/
structure Delivered (cfg : NetConfig) (past : List (Moment Net NetAct NetOut)) (net : Net) :
    Prop where
  numbered : Numbered cfg.sim.draws net.sim
  supplied : ∃ units, Supplied units net.ekm ∧ ∀ unit ∈ units, Minted net.sim unit
  wire : ∀ keys, Etsi014Client.keysOf net.wire = .ok keys → ∀ unit ∈ keys, Minted net.sim unit
  served : ∀ unit ∈ past.flatMap obtained, Minted net.sim unit
  read : ∀ unit ∈ past.flatMap retrieved, Minted net.sim unit
  spent : ∀ unit ∈ past.flatMap retrieved, unit.keyId ∈ net.sim.consumedIds
  once : ((past.flatMap retrieved).map (·.keyId)).Nodup

section

variable {aead : Aead} {cfg : NetConfig} {past : List (Moment Net NetAct NetOut)} {net : Net}

theorem delivered_start (store : Store) : Delivered cfg [] (Net.start store) where
  numbered := by rintro _ ⟨⟩
  supplied := ⟨[], supplied_boot store, by rintro _ ⟨⟩⟩
  wire := by rintro _ ⟨⟩
  served := by rintro _ ⟨⟩
  read := by rintro _ ⟨⟩
  spent := by rintro _ ⟨⟩
  once := List.nodup_nil

/-- A step of the simulator. -/
theorem Delivered.grow (h : Delivered cfg past net) {sim : KeyStore} {keys : List Qkdsim.Key}
    (hm : Mints cfg.sim.draws net.sim keys sim) {wire : Option Qkdsim.Response}
    (hwire : ∀ keys, Etsi014Client.keysOf wire = .ok keys → ∀ unit ∈ keys, Minted sim unit) :
    Delivered cfg past { net with sim, wire } where
  numbered := hm.numbered
  supplied := by
    obtain ⟨units, hs, hunits⟩ := h.supplied
    exact ⟨units, hs, fun unit hunit => (hunits unit hunit).grow hm.grows⟩
  wire := hwire
  served := fun unit hunit => (h.served unit hunit).grow hm.grows
  read := fun unit hunit => (h.read unit hunit).grow hm.grows
  spent := fun unit hunit => hm.grows.consumedIds (h.spent unit hunit)
  once := h.once

/-- A step of the simulator that leaves the wire alone. -/
theorem Delivered.growSim (h : Delivered cfg past net) {sim : KeyStore} {keys : List Qkdsim.Key}
    (hm : Mints cfg.sim.draws net.sim keys sim) : Delivered cfg past { net with sim } :=
  h.grow hm fun keys hkeys unit hunit => (h.wire keys hkeys unit hunit).grow hm.grows

/-- A step of the EKM. -/
theorem Delivered.ekmStep (h : Delivered cfg past net) (a : Act)
    (hd : ∀ unit ∈ deliveries (moment (Ekm.step aead cfg.ekm) net.ekm a), Minted net.sim unit) :
    Delivered cfg past (net.ekmStep aead cfg a).1 where
  numbered := h.numbered
  supplied := by
    obtain ⟨units, hs, hunits⟩ := h.supplied
    refine ⟨_, supplied_step hs a, ?_⟩
    intro unit hunit
    rcases List.mem_append.mp hunit with hunit | hunit
    · exact hunits unit hunit
    · exact hd unit hunit
  wire := by
    intro keys hkeys
    unfold Net.ekmStep at hkeys
    dsimp only at hkeys
    split at hkeys
    · exact h.wire keys hkeys
    · cases hkeys
  served := h.served
  read := h.read
  spent := h.spent
  once := h.once

/-- The record grows by a step, of which the retrieved units are new. -/
theorem Delivered.record (h : Delivered cfg past net) {m : Moment Net NetAct NetOut}
    (ho : ∀ unit ∈ obtained m, Minted net.sim unit)
    (hr : ∀ unit ∈ retrieved m, Minted net.sim unit ∧ unit.keyId ∈ net.sim.consumedIds)
    (hnodup : ((retrieved m).map (·.keyId)).Nodup)
    (hnew : ∀ unit ∈ retrieved m, ∀ old ∈ past.flatMap retrieved, old.keyId ≠ unit.keyId) :
    Delivered cfg (past ++ [m]) net where
  numbered := h.numbered
  supplied := h.supplied
  wire := h.wire
  served := by
    intro unit hunit
    rw [List.flatMap_append, List.flatMap_singleton] at hunit
    exact (List.mem_append.mp hunit).elim (h.served unit) (ho unit)
  read := by
    intro unit hunit
    rw [List.flatMap_append, List.flatMap_singleton] at hunit
    exact (List.mem_append.mp hunit).elim (h.read unit) fun hunit => (hr unit hunit).1
  spent := by
    intro unit hunit
    rw [List.flatMap_append, List.flatMap_singleton] at hunit
    exact (List.mem_append.mp hunit).elim (h.spent unit) fun hunit => (hr unit hunit).2
  once := by
    rw [List.flatMap_append, List.flatMap_singleton, List.map_append, List.nodup_append]
    refine ⟨h.once, hnodup, ?_⟩
    intro id hid id' hid' heq
    obtain ⟨old, hold, rfl⟩ := List.mem_map.mp hid
    obtain ⟨unit, hunit, rfl⟩ := List.mem_map.mp hid'
    exact hnew unit hunit old hold heq

/-- A step that retrieves nothing. -/
theorem Delivered.recordNone (h : Delivered cfg past net) {m : Moment Net NetAct NetOut}
    (ho : ∀ unit ∈ obtained m, Minted net.sim unit) (hr : retrieved m = []) :
    Delivered cfg (past ++ [m]) net := by
  refine h.record ho ?_ ?_ ?_ <;> rw [hr]
  · rintro _ ⟨⟩
  · exact List.nodup_nil
  · rintro _ ⟨⟩

/-- What a server obtains was in the pool. -/
theorem Delivered.obtains (h : Delivered cfg past net) (peer purpose : String) (fates : List Fate)
    (nonces : List Nonce) : ∀ unit ∈ (ekmClientNew (Ekm.step aead cfg.ekm net.ekm
      (.request (.new peer purpose) fates nonces)).2).toList, Minted net.sim unit := by
  intro unit hunit
  obtain ⟨units, hs, hunits⟩ := h.supplied
  obtain ⟨res, store, pool, hends, hstep⟩ :=
    step_new aead cfg.ekm net.ekm peer purpose fates nonces
  rw [hstep] at hunit
  have hstop : ∀ stop, res ≠ .error stop := by
    rintro (e | _) rfl
    · rw [respond, ekmClientNew_error] at hunit
      cases hunit
    · cases hunit
  cases hends with
  | refused _ => exact absurd rfl (hstop _)
  | bound _ ht _ hr =>
    rcases hr with rfl | rfl
    · rw [respond, ekmClientNew_newKey] at hunit
      obtain rfl := List.mem_singleton.mp hunit
      exact hunits _ (ht.mem hs)
    · exact absurd rfl (hstop _)

/-- A call of `dec_keys`. -/
theorem Delivered.dec (h : Delivered cfg past net) (req : DecRequest) :
    Delivered cfg (past ++ [moment (Net.step aead cfg) net (.dec req)])
      (Net.step aead cfg net (.dec req)).1 := by
  rcases decKeys_spends cfg.sim net.sim req with ⟨e, ids, hdec⟩ | ⟨keys, hkeys, hnodup, hdec⟩
  · have hstep : Net.step aead cfg net (.dec req) =
        ({ net with sim := net.sim.spendAll ids }, .sim e.answer) := by
      show (let (sim, resp) := decKeys cfg.sim net.sim req
        ({ net with sim }, NetOut.sim resp)) = _
      rw [hdec]
    have hread : retrieved (moment (Net.step aead cfg) net (.dec req)) = [] := by
      obtain ⟨failure, hf⟩ := keysOf_answer e
      simp only [moment, hstep, retrieved, hf]
      rfl
    rw [hstep]
    exact (h.growSim (spendAll_mints h.numbered ids)).recordNone (by rintro _ ⟨⟩) hread
  · have hstep : Net.step aead cfg net (.dec req) =
        ({ net with sim := net.sim.spendAll (keys.map (·.keyId)) }, .sim (keysReply keys)) := by
      show (let (sim, resp) := decKeys cfg.sim net.sim req
        ({ net with sim }, NetOut.sim resp)) = _
      rw [hdec]
    have hread : retrieved (moment (Net.step aead cfg) net (.dec req)) = keys.map unitOf := by
      simp only [moment, hstep, retrieved, keysOf_keysReply]
      rfl
    rw [hstep]
    refine (h.growSim (spendAll_mints h.numbered _)).record (by rintro _ ⟨⟩) ?_ ?_ ?_ <;> rw [hread]
    · intro unit hunit
      obtain ⟨key, hkey, rfl⟩ := List.mem_map.mp hunit
      refine ⟨⟨key, ?_, rfl⟩, ?_⟩
      · rw [spendAll_keys]
        exact (hkeys key hkey).1
      · rw [spendAll_consumedIds, Finset.mem_union, List.mem_toFinset]
        exact .inr (List.mem_map_of_mem hkey)
    · rw [List.map_map]
      exact hnodup
    · intro unit hunit old hold heq
      obtain ⟨key, hkey, rfl⟩ := List.mem_map.mp hunit
      -- what was retrieved before is not pending
      have hspent := h.spent old hold
      rw [heq] at hspent
      exact (hkeys key hkey).2 hspent

/-- A section of the thread that pulls. What it delivers was on the wire. -/
theorem Delivered.pull (h : Delivered cfg past net) (arrives : Bool) (now : Time) :
    Delivered cfg past (Net.step aead cfg net (.pull arrives now)).1 := by
  refine h.ekmStep _ ?_
  intro unit hunit
  unfold deliveries moment at hunit
  dsimp only at hunit
  split at hunit
  · rename_i keys _ _ _ _ hact _
    have hkeys : Etsi014Client.keysOf (if arrives then net.wire else none) = .ok keys := by
      have hanswer := (Act.pull.inj hact).1
      unfold Etsi014Client.encKeys at hanswer
      split at hanswer
      · rename_i hok
        cases hanswer
        exact hok
      · cases hanswer
      · cases hanswer
    by_cases ha : arrives = true
    · rw [if_pos ha] at hkeys
      exact h.wire keys hkeys unit hunit
    · rw [if_neg ha] at hkeys
      cases hkeys
  · cases hunit

/-- The simulator handles the call of the thread that pulls. -/
theorem Delivered.call (huuid : Function.Injective fun i => (cfg.sim.draws i).1)
    (h : Delivered cfg past net) : Delivered cfg past (Net.step aead cfg net .call).1 := by
  unfold Net.step
  dsimp only
  split
  · rename_i peer number _ _ _
    rcases encKeys_mints cfg.sim huuid h.numbered (cfg.client.encRequest peer number) with
      ⟨e, hreply, hm⟩ | ⟨keys, hreply, hm⟩
    · refine h.grow hm ?_
      intro keys hkeys
      obtain ⟨failure, hf⟩ := keysOf_answer e
      rw [hreply, hf] at hkeys
      cases hkeys
    · refine h.grow hm ?_
      intro keys' hkeys unit hunit
      rw [hreply, keysOf_keysReply] at hkeys
      cases hkeys
      obtain ⟨key, hkey, rfl⟩ := List.mem_map.mp hunit
      exact ⟨key, hm.minted key hkey, rfl⟩
  · exact h

/-- The source is switched on or off. -/
theorem Delivered.source (h : Delivered cfg past net) (authorization : Option String)
    (body : Body) : Delivered cfg past (Net.step aead cfg net (.source authorization body)).1 := by
  have hm : Mints cfg.sim.draws net.sim [] (simSource cfg.sim net.sim authorization body).1 := by
    have hsame : ∀ available, Mints cfg.sim.draws net.sim []
        { net.sim with sourceAvailable := available } := fun available =>
      ⟨h.numbered, ⟨List.Subset.refl _, Finset.Subset.refl _⟩, by rintro _ ⟨⟩⟩
    unfold simSource
    split
    · exact hsame net.sim.sourceAvailable
    · split
      · exact hsame net.sim.sourceAvailable
      · exact hsame net.sim.sourceAvailable
      · exact hsame _
      · exact hsame net.sim.sourceAvailable
  exact h.growSim hm

theorem Delivered.enc (huuid : Function.Injective fun i => (cfg.sim.draws i).1)
    (h : Delivered cfg past net) (req : EncRequest) :
    Delivered cfg past (Net.step aead cfg net (.enc req)).1 := by
  obtain ⟨_, _, hm⟩ | ⟨_, _, hm⟩ := encKeys_mints cfg.sim huuid h.numbered req
  · exact h.growSim hm
  · exact h.growSim hm

/-- **What is under way was minted**, through every step. -/
theorem delivered_step (huuid : Function.Injective fun i => (cfg.sim.draws i).1)
    (h : Delivered cfg past net) (a : NetAct) :
    Delivered cfg (past ++ [moment (Net.step aead cfg) net a]) (Net.step aead cfg net a).1 := by
  cases a with
  | dec req => exact h.dec req
  | source authorization body => exact (h.source authorization body).recordNone (by rintro _ ⟨⟩) rfl
  | enc req => exact (h.enc huuid req).recordNone (by rintro _ ⟨⟩) rfl
  | call => exact (h.call huuid).recordNone (by rintro _ ⟨⟩) rfl
  | pull arrives now => exact (h.pull arrives now).recordNone (by rintro _ ⟨⟩) rfl
  | expire peer now => exact (h.ekmStep _ (by rintro _ ⟨⟩)).recordNone (by rintro _ ⟨⟩) rfl
  | restart => exact (h.ekmStep _ (by rintro _ ⟨⟩)).recordNone (by rintro _ ⟨⟩) rfl
  | request r fates nonces =>
    refine (h.ekmStep _ (by rintro _ ⟨⟩)).recordNone ?_ rfl
    cases r with
    | new peer purpose => exact h.obtains peer purpose fates nonces
    | healthz | keyOp _ _ | describe _ | state | authority _ | ack => rintro _ ⟨⟩

/-- The entries of an answer are the units that the client makes of it. -/
theorem dispensed_eq (net : Net) (a : NetAct) :
    dispensed (moment (Net.step aead cfg) net a) =
      (retrieved (moment (Net.step aead cfg) net a)).map
        fun unit => (unit.keyId, b64e unit.key) := by
  cases a with
  | source _ _ | enc _ | call | pull _ _ | request _ _ _ | expire _ _ | restart => rfl
  | dec req =>
    show dispensed ⟨net, .dec req, .sim (decKeys cfg.sim net.sim req).2, _⟩ =
      (retrieved ⟨net, .dec req, .sim (decKeys cfg.sim net.sim req).2, _⟩).map _
    rcases decKeys_spends cfg.sim net.sim req with ⟨e, ids, hdec⟩ | ⟨keys, _, _, hdec⟩
    · obtain ⟨failure, hf⟩ := keysOf_answer e
      have hstatus := e.answer_status
      rw [hdec]
      simp only [retrieved, hf]
      unfold dispensed
      split
      · rename_i hout
        rw [NetOut.sim.inj hout] at hstatus
        exact absurd hstatus (show ¬ 400 ≤ 200 by decide)
      · rfl
    · rw [hdec]
      simp only [retrieved, keysOf_keysReply]
      show keys.map (fun k => (k.keyId, b64e k.key.bytes)) = (keys.map unitOf).map _
      rw [List.map_map]
      rfl

variable (aead cfg) in
/-- **Both ends of every key id hold the same bytes, delivered once.** -/
theorem both_ends_agree (huuid : Function.Injective fun i => (cfg.sim.draws i).1) (store : Store)
    (acts : List NetAct) :
    let run := trace (Net.step aead cfg) (Net.start store) acts
    let net := exec (Net.step aead cfg) (Net.start store) acts
    (∀ unit ∈ run.flatMap obtained, ∀ unit' ∈ run.flatMap retrieved,
      unit'.keyId = unit.keyId → unit'.key = unit.key) ∧
    (∀ unit ∈ run.flatMap obtained ++ run.flatMap retrieved, unit.key.length = 32 ∧
      ∃ key ∈ net.sim.keys.rows, key.keyId = unit.keyId ∧ key.key.bytes = unit.key) ∧
    (∀ m ∈ run, dispensed m =
      (retrieved m).map fun unit => (unit.keyId, b64e unit.key)) ∧
    ((run.flatMap dispensed).map (·.1)).Nodup := by
  intro run net
  have h : Delivered cfg run net :=
    trace_invariant (Delivered cfg) (fun _ => True) (delivered_start store)
      (fun past net a h _ => delivered_step huuid h a) (fun _ _ => trivial)
  have hentries : ∀ m ∈ run, dispensed m =
      (retrieved m).map fun unit => (unit.keyId, b64e unit.key) := by
    intro m hm
    obtain ⟨before, _, _, hmoment⟩ := mem_trace hm
    rw [hmoment]
    exact dispensed_eq _ _
  refine ⟨?_, ?_, hentries, ?_⟩
  -- both ends hold the one unit that was minted under the id
  · intro unit hunit unit' hunit' hid
    rw [(h.served unit hunit).unique (h.read unit' hunit') hid]
  · intro unit hunit
    obtain ⟨key, hkey, rfl⟩ := (List.mem_append.mp hunit).elim (h.served unit) (h.read unit)
    exact ⟨key.key.length_eq, key, hkey, rfl, rfl⟩
  · have hids : (run.flatMap dispensed).map (·.1) = (run.flatMap retrieved).map (·.keyId) := by
      rw [List.map_flatMap, List.map_flatMap]
      refine List.flatMap_congr fun m hm => ?_
      rw [hentries m hm, List.map_map]
      rfl
    rw [hids]
    exact h.once

end

/-- A simulator whose n-th key is `u` and the number n, with n in every
byte, and an EKM that keeps two keys for one peer. -/
def twoKeys : NetConfig where
  sim := { draws := fun n =>
    ("u" ++ toString n, ⟨List.replicate keyBytes (UInt8.ofNat n), List.length_replicate ..⟩) }
  ekm := { pool := { peers := ["QKD2"], target := 2 }, localKey := [] }

/-- The EKM pulls two keys; a server obtains the first, and a client both. -/
def bothEnds : List NetAct :=
  [.pull true 0, .pull true 0, .call, .pull true 0, .pull true 0, .request (.new "QKD2") [] [],
    .dec (twoKeys.client.decRequest "QKD1" ["u1", "u0"])]

theorem both_ends_agree_bothEnds :
    let run := trace (Net.step .tagging twoKeys) (Net.start .empty) bothEnds
    run.flatMap obtained = [⟨"u0", List.replicate 32 0⟩] ∧
      run.flatMap retrieved = [⟨"u1", List.replicate 32 1⟩, ⟨"u0", List.replicate 32 0⟩] ∧
      ((run.flatMap dispensed).map (·.1)).Nodup := by
  have huuid : Function.Injective fun i => (twoKeys.sim.draws i).1 := by
    intro i j h
    exact toString_nat_inj.mp ((String.append_right_inj "u").mp h)
  exact ⟨by decide +kernel, by decide +kernel,
    (both_ends_agree .tagging twoKeys huuid .empty bothEnds).2.2.2⟩

end QkdEkm.Qkd
