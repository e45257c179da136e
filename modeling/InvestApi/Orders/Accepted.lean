import InvestApi.Fx.Calendar
import InvestApi.Ledger.Books
import InvestApi.Ledger.Doubles
import InvestApi.Ref.OrderPlaced

/-!
# What a consumer makes of an order's event

The producer holds an event to the columns of the database, the consumer to its
schema. A message is read back field by field as it was written, so it is accepted
exactly when every field meets its own check. Most of them do in any order that
commits; three may not: the two ids, which the request spells and the schema of the
database takes as any 128 bits, and the cost, a product of doubles which a `bigint`
bounds and a safe integer bounds lower.
-/

namespace InvestApi.Ref

open InvestApi.Codec InvestApi.Pg

variable {zod : Zod}

/-! ## Reading a message -/

/-- What the schema asks of an event. -/
structure Zod.Accepts (zod : Zod) (event : OrderPlaced) : Prop where
  eventId : zod.uuid event.eventId = true
  type : event.type = ORDER_PLACED
  occurredAt : zod.datetime event.occurredAt = true
  orderId : zod.uuid event.data.orderId = true
  accountId : zod.uuid event.data.accountId = true
  instrumentId : zod.uuid event.data.instrumentId = true
  quantity : isSafeInt event.data.quantity = true ∧ event.data.quantity > 0
  costCents : isSafeInt event.data.costCents = true ∧ event.data.costCents ≥ 0
  currency : jsLength event.data.currency = 3

theorem parse_content (event : OrderPlaced) :
    parse (utf8Decode none event.content) = some event.message.json := by
  rw [OrderPlaced.content, utf8Decode_encode, parse_text]

/-- The properties of `data` in a message. -/
def dataProps (data : OrderPlacedData) : List (String × Json) :=
  [("orderId", .string (.ofString data.orderId)),
    ("accountId", .string (.ofString data.accountId)),
    ("instrumentId", .string (.ofString data.instrumentId)),
    ("quantity", .number (bigintText data.quantity.num)),
    ("costCents", .number (bigintText data.costCents.num)),
    ("currency", .string (.ofString data.currency))]

/-- The properties of a message. -/
def eventProps (event : OrderPlaced) : List (String × Json) :=
  [("eventId", .string (.ofString event.eventId)), ("type", .string (.ofString event.type)),
    ("occurredAt", .string (.ofString event.occurredAt)),
    ("data", .object (named (dataProps event.data)))]

theorem message_json (event : OrderPlaced) :
    event.message.json = .object (named (eventProps event)) := by
  simp only [OrderPlaced.message, Plain.json, propsJson, eventProps, dataProps, named,
    List.map_cons, List.map_nil]

theorem isSafeInt_iff_safe {x : Number} : isSafeInt x = true ↔ x.den = 1 ∧ Safe x.num := by
  rw [isSafeInt, decide_eq_true_eq, safe_iff]
  refine and_congr_right fun _ => ?_
  omega

/-- The text of a whole number is read as a safe integer exactly when it is one, and
then as itself. -/
theorem readText_iff {x y : Number} (hx : x.den = 1) :
    roundTo 53 ((bigintText x.num : Int) : Number) = y ∧ isSafeInt y = true ↔
      isSafeInt x = true ∧ y = x := by
  have hself : ((x.num : Int) : Number) = x := Rat.coe_int_num_of_den_eq_one hx
  rw [← cast_roundInt]
  constructor
  · rintro ⟨rfl, hsafe⟩
    rw [isSafeInt_iff_safe, Rat.num_intCast] at hsafe
    have hread : roundInt 53 (bigintText x.num) = bigintText x.num :=
      roundInt_eq_self (by decide) (safe_iff_lt.mp hsafe.2)
    have hkept : bigintText x.num = x.num :=
      shortest_eq_self (safe_iff_lt.mp (by rw [hread] at hsafe; exact hsafe.2))
    rw [hread, hkept] at hsafe ⊢
    exact ⟨isSafeInt_iff_safe.mpr ⟨hx, hsafe.2⟩, hself⟩
  · rintro ⟨hsafe, rfl⟩
    have hnum := (isSafeInt_iff_safe.mp hsafe).2
    rw [bigintText_of_safe hnum, roundInt_of_lt (safe_iff_lt.mp hnum)]
    exact ⟨hself, hsafe⟩

theorem orderPlacedData_iff {data data' : OrderPlacedData} (hq : data.quantity.den = 1)
    (hc : data.costCents.den = 1) :
    zod.orderPlacedData (named (dataProps data)) = some data' ↔
      (zod.uuid data.orderId = true ∧ zod.uuid data.accountId = true ∧
        zod.uuid data.instrumentId = true ∧
        (isSafeInt data.quantity = true ∧ data.quantity > 0) ∧
        (isSafeInt data.costCents = true ∧ data.costCents ≥ 0) ∧
        jsLength data.currency = 3) ∧ data' = data := by
  have horder : stringProp "orderId" (named (dataProps data)) = some data.orderId :=
    stringProp_named rfl
  have haccount : stringProp "accountId" (named (dataProps data)) = some data.accountId :=
    stringProp_named rfl
  have hinstrument : stringProp "instrumentId" (named (dataProps data))
      = some data.instrumentId := stringProp_named rfl
  have hquantity : numberProp "quantity" (named (dataProps data))
      = some (roundTo 53 (bigintText data.quantity.num : Int)) := by
    rw [numberProp, lookup_named]
    rfl
  have hcost : numberProp "costCents" (named (dataProps data))
      = some (roundTo 53 (bigintText data.costCents.num : Int)) := by
    rw [numberProp, lookup_named]
    rfl
  have hcurrency : stringProp "currency" (named (dataProps data)) = some data.currency :=
    stringProp_named rfl
  simp only [Zod.orderPlacedData, Zod.uuidProp, horder, haccount, hinstrument, hquantity, hcost,
    hcurrency, Option.bind_eq_bind, Option.bind_eq_some_iff, Option.filter_eq_some_iff,
    Option.some.injEq, Option.pure_def, Bool.and_eq_true, decide_eq_true_eq]
  constructor
  · rintro ⟨_, ⟨rfl, ho⟩, _, ⟨rfl, ha⟩, _, ⟨rfl, hi⟩, quantity, ⟨hqread, hqsafe, hqpos⟩, cost,
      ⟨hcread, hcsafe, hcpos⟩, _, ⟨rfl, hl⟩, rfl⟩
    obtain ⟨hqsafe, rfl⟩ := (readText_iff hq).mp ⟨hqread, hqsafe⟩
    obtain ⟨hcsafe, rfl⟩ := (readText_iff hc).mp ⟨hcread, hcsafe⟩
    exact ⟨⟨ho, ha, hi, ⟨hqsafe, hqpos⟩, ⟨hcsafe, hcpos⟩, hl⟩, rfl⟩
  · rintro ⟨⟨ho, ha, hi, ⟨hqsafe, hqpos⟩, ⟨hcsafe, hcpos⟩, hl⟩, rfl⟩
    obtain ⟨hqread, -⟩ := (readText_iff hq).mpr ⟨hqsafe, rfl⟩
    obtain ⟨hcread, -⟩ := (readText_iff hc).mpr ⟨hcsafe, rfl⟩
    exact ⟨_, ⟨rfl, ho⟩, _, ⟨rfl, ha⟩, _, ⟨rfl, hi⟩, _, ⟨hqread, hqsafe, hqpos⟩, _,
      ⟨hcread, hcsafe, hcpos⟩, _, ⟨rfl, hl⟩, rfl⟩

/-- What is read of a message is the event it was written from, or nothing. -/
theorem parseOrderPlaced_content_iff {event event' : OrderPlaced}
    (hq : event.data.quantity.den = 1) (hc : event.data.costCents.den = 1) :
    zod.parseOrderPlaced event.content = some event' ↔ zod.Accepts event ∧ event' = event := by
  generalize hprops : named (eventProps event) = props
  have hevent : stringProp "eventId" props = some event.eventId :=
    hprops ▸ stringProp_named rfl
  have htype : stringProp "type" props = some event.type := hprops ▸ stringProp_named rfl
  have hoccurred : stringProp "occurredAt" props = some event.occurredAt :=
    hprops ▸ stringProp_named rfl
  have hdata : objectProp "data" props = some (named (dataProps event.data)) := by
    rw [← hprops, objectProp, lookup_named]
    rfl
  have hparse : zod.parseOrderPlaced event.content = zod.orderPlacedSchema (.object props) := by
    rw [Zod.parseOrderPlaced, parse_content, message_json, hprops]
    rfl
  rw [hparse]
  simp only [Zod.orderPlacedSchema, Zod.uuidProp, hevent, htype, hoccurred, hdata,
    Option.bind_eq_bind, Option.bind_eq_some_iff, Option.filter_eq_some_iff, Option.some.injEq,
    Option.pure_def, decide_eq_true_eq, exists_eq_left', orderPlacedData_iff hq hc]
  constructor
  · rintro ⟨_, ⟨rfl, he⟩, _, ⟨rfl, ht⟩, _, ⟨rfl, ho⟩, _,
      ⟨⟨horder, haccount, hinstrument, hquantity, hcost, hcurrency⟩, rfl⟩, rfl⟩
    exact ⟨⟨he, ht, ho, horder, haccount, hinstrument, hquantity, hcost, hcurrency⟩, rfl⟩
  · rintro ⟨h, rfl⟩
    exact ⟨_, ⟨rfl, h.eventId⟩, _, ⟨rfl, h.type⟩, _, ⟨rfl, h.occurredAt⟩, _,
      ⟨⟨h.orderId, h.accountId, h.instrumentId, h.quantity, h.costCents, h.currency⟩, rfl⟩, rfl⟩

/-! ## What a committed order is made of -/

/-- A random uuid: its version is 4 and its variant that of RFC 9562. -/
def IsV4 (u : Uuid) : Prop := u.val / 2 ^ 76 % 16 = 4 ∧ u.val / 2 ^ 62 % 4 = 2

/-- The formats as zod documents them. -/
structure Zod.Documented (zod : Zod) : Prop where
  uuid : ∀ u, IsV4 u → zod.uuid u.text = true
  datetime : ∀ t : Instant, Dated (t / MS_PER_DAY) → zod.datetime (toISOString t) = true

/-- The CHECK on the code of a currency. -/
def IsCurrencyCode (code : String) : Prop :=
  code.toList.length = 3 ∧ ∀ c ∈ code.toList, 'A' ≤ c ∧ c ≤ 'Z'

theorem jsLength_code {code : String} (h : IsCurrencyCode code) : jsLength code = 3 := by
  obtain ⟨hlength, hletters⟩ := h
  have hunits : ∀ cs : List Char, (∀ c ∈ cs, 'A' ≤ c ∧ c ≤ 'Z') →
      (cs.flatMap charUnits).length = cs.length := by
    intro cs hcs
    induction cs with
    | nil => rfl
    | cons c cs ih =>
        have hc := hcs c List.mem_cons_self
        have hlow : c.toNat < 0x80 := by
          have hle : c.toNat ≤ 'Z'.toNat := hc.2
          have hZ : 'Z'.toNat = 90 := rfl
          omega
        rw [List.flatMap_cons, charUnits_low hlow, List.length_append,
          ih fun c' hc' => hcs c' (List.mem_cons_of_mem c hc')]
        simp [Nat.add_comm]
  rw [jsLength, hunits _ hletters, hlength]

section Committed

variable {env : Env} {request : CheckoutRequest} {draw : CheckoutDraw} {d : LedgerDb}
  {u : Uuid} {row : AccountRow} {cost : Int} {order : TransactionRow}

/-- A whole number that is not negative is safe below 2⁵³. -/
theorem isSafeInt_iff {x : Number} (hden : x.den = 1) (hpos : 0 ≤ x) :
    isSafeInt x = true ↔ x < 2 ^ 53 := by
  have hx : ((x.num : Int) : Rat) = x := Rat.coe_int_num_of_den_eq_one hden
  have hnum : 0 ≤ x.num := Rat.num_nonneg.mpr hpos
  have hlt : x < 2 ^ 53 ↔ x.num < 2 ^ 53 := by
    rw [← hx]
    exact_mod_cast Iff.rfl
  rw [hlt, isSafeInt, decide_eq_true_eq]
  constructor
  · intro h
    omega
  · intro h
    exact ⟨hden, by omega⟩

/-- The quantity is a safe integer: a million times it is a `bigint`. -/
theorem Debits.quantity_safe (h : Debits request u row cost) {micro : Int}
    (hmicro : bigintParam (request.quantity * 1000000) = .ret micro) :
    request.quantity.den = 1 ∧ isSafeInt request.quantity = true ∧ request.quantity > 0 := by
  have hok := h.quantity
  simp only [Checkout.quantityOk, decide_eq_true_eq] at hok
  obtain ⟨hden, hpos⟩ := hok
  obtain ⟨-, hnum, hfit⟩ := bigintParam_ret hmicro
  have hquantity : ((request.quantity.num : Int) : Rat) = request.quantity :=
    Rat.coe_int_num_of_den_eq_one hden
  have hmillion : request.quantity * 1000000 = ((request.quantity.num * 1000000 : Int) : Rat) := by
    rw [Int.cast_mul, hquantity]
    norm_num
  have hscaled : request.quantity.num * 1000000 = micro := by
    rw [← hnum, hmillion, Rat.num_intCast]
  have hnumpos : 0 < request.quantity.num := Rat.num_pos.mpr hpos
  simp only [inBigint, decide_eq_true_eq] at hfit
  refine ⟨hden, ?_, hpos⟩
  simp only [isSafeInt, decide_eq_true_eq]
  exact ⟨hden, by omega⟩

/-- The cost is whole and, as the order row holds it, not negative. -/
theorem Buys.cost_nonneg (h : Buys env request draw d u row cost order) :
    (Checkout.costCents request).den = 1 ∧ 0 ≤ Checkout.costCents request ∧
      row.currency ∈ env.currencies := by
  obtain ⟨hden, hnum, -⟩ := bigintParam_ret h.cost_eq
  obtain ⟨rate, i, q, -, -, -, horder⟩ := h.order_eq
  have hok := transactionConstraints_iff.mp h.order_ok
  subst horder
  obtain ⟨-, -, -, -, -, ⟨hamount, -⟩, -, -, -, -, -, hcode⟩ := hok
  have hwhole : (Checkout.costCents request).den = 1 := by
    by_contra hfraction
    rw [Checkout.sentCost, if_neg hfraction] at hden
    exact hfraction hden
  have hsent : 0 ≤ shortest 53 (Checkout.costCents request).num := by
    rw [Checkout.sentCost, if_pos hwhole, Rat.num_intCast] at hnum
    show 0 ≤ bigintText (Checkout.costCents request).num
    rw [hnum]
    exact hamount
  exact ⟨hwhole, Rat.num_nonneg.mp (nonneg_of_shortest hsent), hcode⟩

end Committed

/-! ## Over whole runs -/

/-- A committed checkout has debited an account and stored an order. -/
theorem committed_buys {ι : Type} [DecidableEq ι] {env : Env} {calls : ι → LedgerCall}
    {d : LedgerDb} (hlink : Linked d) {st : LedgerState ι}
    (hr : Reach (ledgerSystem env calls) (State.init d) st) {i : ι} {request : CheckoutRequest}
    {draw : CheckoutDraw} {success : CheckoutSuccess} (hi : calls i = .checkout request draw)
    (hlog : (i, .committed (.checkout success)) ∈ st.log) :
    ∃ d' u row cost order, Buys env request draw d' u row cost order ∧
      success = bought request draw row cost := by
  have hatomic := @ledger_refines ι _ env calls (fun _ _ => True) d hlink st hr
  have hlog' : (i, .committed (.checkout success)) ∈ st.toWorld.log := hlog
  generalize st.toWorld = w at hatomic hlog'
  induction hatomic with
  | refl => simp at hlog'
  | tail _ hstep ih =>
      cases hstep with
      | commit hlinked hc h =>
          rcases List.mem_append.mp hlog' with hold | hnew
          · exact ih hold
          · simp only [List.mem_singleton, Prod.mk.injEq, Finish.committed.injEq] at hnew
            obtain ⟨rfl, rfl⟩ := hnew
            rw [hi] at h
            cases h with
            | bought h => exact ⟨_, _, _, _, _, h, rfl⟩
      | rollback hlinked =>
          rcases List.mem_append.mp hlog' with hold | hnew
          · exact ih hold
          · simp at hnew
      | abort hlinked =>
          rcases List.mem_append.mp hlog' with hold | hnew
          · exact ih hold
          · simp at hnew

/-- What the consumer takes of a request whose order has committed. -/
def Receivable (zod : Zod) (request : CheckoutRequest) : Prop :=
  zod.uuid request.accountId = true ∧ zod.uuid request.instrumentId = true ∧
    Checkout.costCents request < 2 ^ 53

/-- The event of a committed order is accepted, as it was built, exactly when zod takes
the two ids the request spells and the cost, as JavaScript multiplies it, is a safe
integer. Otherwise it is poison. -/
theorem order_event_accepted_iff {ι : Type} [DecidableEq ι] {env : Env}
    {calls : ι → LedgerCall} {d : LedgerDb} (hzod : zod.Documented)
    (hcodes : ∀ code ∈ env.currencies, IsCurrencyCode code) (hlink : Linked d)
    {st : LedgerState ι} (hr : Reach (ledgerSystem env calls) (State.init d) st) {i : ι}
    {request : CheckoutRequest} {draw : CheckoutDraw} {success : CheckoutSuccess}
    (hi : calls i = .checkout request draw)
    (hlog : (i, .committed (.checkout success)) ∈ st.log) {event : EventDraw}
    (horder : IsV4 draw.orderId) (hevent : IsV4 event.eventId)
    (hnow : Dated (event.now / MS_PER_DAY)) :
    (zod.parseOrderPlaced (orderPlaced event request success).object.content
        = some (orderPlaced event request success).object ↔ Receivable zod request) ∧
      (zod.parseOrderPlaced (orderPlaced event request success).object.content = none ↔
        ¬Receivable zod request) := by
  obtain ⟨d', u, row, cost, order, hbuys, rfl⟩ := committed_buys hlink hr hi hlog
  obtain ⟨rate, instrument, micro, -, -, hmicro, -⟩ := hbuys.order_eq
  obtain ⟨hqden, hqsafe, hqpos⟩ := hbuys.toDebits.quantity_safe hmicro
  obtain ⟨hcden, hcpos, hcode⟩ := hbuys.cost_nonneg
  generalize hobject : (orderPlaced event request (bought request draw row cost)).object = object
  have hread : ∀ {event'}, zod.parseOrderPlaced object.content = some event' ↔
      zod.Accepts object ∧ event' = object := by
    rw [← hobject]
    exact parseOrderPlaced_content_iff hqden hcden
  have haccepts : zod.Accepts object ↔ Receivable zod request := by
    rw [← hobject]
    constructor
    · intro h
      exact ⟨h.accountId, h.instrumentId, (isSafeInt_iff hcden hcpos).mp h.costCents.1⟩
    · rintro ⟨haccount, hinstrument, hcost⟩
      exact ⟨hzod.uuid _ hevent, rfl, hzod.datetime _ hnow, hzod.uuid _ horder, haccount,
        hinstrument, ⟨hqsafe, hqpos⟩, ⟨(isSafeInt_iff hcden hcpos).mpr hcost, hcpos⟩,
        jsLength_code (hcodes _ hcode)⟩
  constructor
  · rw [hread, haccepts]
    exact ⟨fun h => h.1, fun h => ⟨h, rfl⟩⟩
  · rw [← haccepts]
    constructor
    · intro hnone h
      rw [hread.mpr ⟨h, rfl⟩] at hnone
      simp at hnone
    · intro h
      cases hparse : zod.parseOrderPlaced object.content with
      | none => rfl
      | some event' => exact absurd (hread.mp hparse).1 h

/-! ## The accounts of the seed -/

/-- `z.uuid()` and `z.iso.datetime()`, the latter as far as `toISOString` goes. -/
def rfcZod : Zod where
  uuid s := (pgUuidIn s).any fun u =>
    decide (s = u.text ∨ s.toList.map Char.toLower = u.chars) &&
      (decide (1 ≤ u.val / 2 ^ 76 % 16 ∧ u.val / 2 ^ 76 % 16 ≤ 8 ∧ u.val / 2 ^ 62 % 4 = 2) ||
        decide (u.val = 0 ∨ u.val = 2 ^ 128 - 1))
  datetime s := decide (s.toList.length = 24 ∧ s.toList[10]? = some 'T' ∧
    s.toList[23]? = some 'Z')

theorem rfcZod_documented : rfcZod.Documented where
  uuid u hu := by
    obtain ⟨hversion, hvariant⟩ := hu
    simp only [rfcZod, pgUuidIn_text, Option.any_some, true_or, decide_true, Bool.true_and,
      Bool.or_eq_true, decide_eq_true_eq]
    exact Or.inl ⟨by omega, by omega, hvariant⟩
  datetime t ht := by
    have hdate := length_dateText ht
    have hclock : (clockText (t % MS_PER_DAY).toNat).length = 12 := by simp [clockText]
    have hlength : (toISOString t).toList.length = 24 := by
      simp [toISOString, hdate, hclock]
    simp only [rfcZod, decide_eq_true_eq]
    refine ⟨hlength, ?_, ?_⟩
    · rw [toISOString, String.toList_ofList, List.append_assoc,
        List.getElem?_append_right (by omega), hdate]
      rfl
    · rw [toISOString, String.toList_ofList, List.getElem?_append_right (by simp [hdate, hclock])]
      simp [hdate, hclock]

/-- `md5('account:' || n)::uuid` for 1 and 3, and `md5('instrument:25')::uuid`. -/
def seedAccount : Fin 2 → Uuid
  | 0 => 0x473ecd9fe45b282b857c5bf70105af38
  | 1 => 0xc5fbf07726d9b8a3a90eafdc6679b921

def seedInstrument : Uuid := 0x6e2e636db4b38eff861ade67dce6400f

def seedEnv : Env := { sampleEnv with instruments := [⟨seedInstrument, "SYM0025"⟩] }

def seedDb (n : Fin 2) (balance : Int) : LedgerDb :=
  Db.empty.set (.account (seedAccount n)) (some ⟨1, "UAH", "Mono", .bank, balance, false, 0⟩)

def seedRequest (n : Fin 2) (quantity unitPriceCents : Number) : CheckoutRequest :=
  ⟨(seedAccount n).text, seedInstrument.text, quantity, unitPriceCents, none⟩

def seedDraw : CheckoutDraw :=
  ⟨0x00000000000040008000000000000001, 0x00000000000040008000000000000002, 0⟩

def seedEvent : EventDraw := ⟨0x00000000000040008000000000000003, 1787659200000⟩

def seedSuccess (cost : Number) : CheckoutSuccess :=
  ⟨seedDraw.orderId, seedDraw.jobId, 0, cost, "UAH"⟩

def seedCalls (request : CheckoutRequest) (_ : Fin 4) : LedgerCall := .checkout request seedDraw

def seedSchedule : List (Turn (Fin 4)) := [.start 0] ++ turns 0 5 ++ [.finish 0]

theorem seedDb_linked (n : Fin 2) (balance : Int) : Linked (seedDb n balance) := by
  intro id row hrow
  rw [seedDb, Db.get_set_ne _ _ (by simp)] at hrow
  simp at hrow

/-- Alone, a checkout that spends the whole balance commits. -/
def Buyable (n : Fin 2) (balance : Int) (request : CheckoutRequest) : Prop :=
  ∃ st, Reach (ledgerSystem seedEnv (seedCalls request)) (State.init (seedDb n balance)) st ∧
    (0, .committed (.checkout (seedSuccess balance))) ∈ st.log

theorem buyable_of_path {n : Fin 2} {balance : Int} {request : CheckoutRequest}
    (h : (path (ledgerSystem seedEnv (seedCalls request)) seedSchedule
      (State.init (seedDb n balance))).any (fun st =>
        decide (st.log = [(0, .committed (.checkout (seedSuccess balance)))])) = true) :
    Buyable n balance request := by
  obtain ⟨st, hr, hp⟩ := exists_reach seedSchedule _ h
  refine ⟨st, hr, ?_⟩
  rw [of_decide_eq_true hp]
  exact List.mem_singleton_self _

theorem order_event_accepted_iff_seed :
    ∃ st, Reach (ledgerSystem seedEnv (seedCalls (seedRequest 0 1 300)))
        (State.init (seedDb 0 300)) st ∧
      (0, .committed (.checkout (seedSuccess 300))) ∈ st.log ∧
      rfcZod.parseOrderPlaced
          (orderPlaced seedEvent (seedRequest 0 1 300) (seedSuccess 300)).object.content
        = some (orderPlaced seedEvent (seedRequest 0 1 300) (seedSuccess 300)).object := by
  obtain ⟨st, hr, hlog⟩ : Buyable 0 300 (seedRequest 0 1 300) :=
    buyable_of_path (by decide +kernel)
  refine ⟨st, hr, hlog, (order_event_accepted_iff rfcZod_documented ?_ (seedDb_linked 0 300) hr
    rfl hlog ⟨by decide +kernel, by decide +kernel⟩ ⟨by decide +kernel, by decide +kernel⟩
    ⟨by decide +kernel, by decide +kernel⟩).1.mpr ⟨?_, ?_, ?_⟩⟩
  · intro code hcode
    obtain rfl : code = "UAH" := by simpa [seedEnv, sampleEnv] using hcode
    refine ⟨rfl, fun c hc => ?_⟩
    have hletter : c = 'U' ∨ c = 'A' ∨ c = 'H' := by simpa using hc
    rcases hletter with rfl | rfl | rfl
    · exact ⟨by decide, by decide⟩
    · exact ⟨by decide, by decide⟩
    · exact ⟨by decide, by decide⟩
  · decide +kernel
  · decide +kernel
  · decide +kernel

/-- The order of the third seeded account, an order beyond the safe integers, and one
that only the rounding of its cost puts there, are paid for and their events are
poison. -/
theorem committed_order_event_poison :
    Buyable 1 300 (seedRequest 1 1 300) ∧
      rfcZod.parseOrderPlaced
        (orderPlaced seedEvent (seedRequest 1 1 300) (seedSuccess 300)).object.content = none ∧
    Buyable 0 (10 ^ 16) (seedRequest 0 (10 ^ 5) (10 ^ 11)) ∧
      rfcZod.parseOrderPlaced (orderPlaced seedEvent (seedRequest 0 (10 ^ 5) (10 ^ 11))
        (seedSuccess (10 ^ 16))).object.content = none ∧
    Buyable 0 (2 ^ 53) (seedRequest 0 134217727 (134217729 / 2)) ∧
      (134217727 : Number) * (134217729 / 2) < 2 ^ 53 ∧
      rfcZod.parseOrderPlaced (orderPlaced seedEvent (seedRequest 0 134217727 (134217729 / 2))
        (seedSuccess (2 ^ 53))).object.content = none :=
  ⟨buyable_of_path (by decide +kernel), by decide +kernel, buyable_of_path (by decide +kernel),
    by decide +kernel, buyable_of_path (by decide +kernel), by norm_num, by decide +kernel⟩

end InvestApi.Ref
