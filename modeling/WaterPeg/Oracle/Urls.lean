import WaterPeg.Oracle

/-! The register of pages that prices are read from. -/
namespace WaterPeg.Oracle

/-- Register a page, active and fully reliable. -/
def registerUrl (o : Oracle) (url : String) (kind : MeasurementKind) (currency : Option String)
    (submitter : String) (now blockHeight : UInt64) : Outcome Digest :=
  match Evidence.checkUrl url with
  | .error fault => (.error (.refused (.evidence fault)), o)
  | .ok () =>
    let id := SourceUrl.idOf url kind currency
    if o.tables.urls.contains id then (.error (.refused .duplicateUrl), o)
    else
      o.commit
        [.putUrl
          { id, url, kind, currency, submitter
            validators := []
            lastChecked := now
            isActive := true
            reliability := 1000000
            checkCount := 0
            blockHeight }]
        id

def endorseUrl (o : Oracle) (id : Digest) (validator : String) : Outcome Unit :=
  match o.tables.urls[id]? with
  | none => (.error (.refused .unknownUrl), o)
  | some u =>
    if u.submitter = validator then (.error (.refused .ownRecord), o)
    else if u.validators.contains validator then (.error (.refused .alreadyValidated), o)
    else o.commit [.putUrl { u with validators := u.validators ++ [validator] }] ()

/-- Note the outcome of a check of a page; gives its reliability. -/
def recordUrlCheck (o : Oracle) (id : Digest) (success : Bool) (now : UInt64) : Outcome UInt64 :=
  match o.tables.urls[id]? with
  | none => (.error (.refused .unknownUrl), o)
  | some u =>
    let u := u.afterCheck success now o.params.minUrlReliability
    o.commit [.putUrl u] u.reliability

/-- The active pages of a kind that quote a currency, or every currency, by ascending id. -/
def activeUrls (o : Oracle) (kind : MeasurementKind) (currency : Option String) : List SourceUrl :=
  o.tables.urls.values.filter fun u =>
    u.isActive && u.kind == kind && (u.currency.isNone || u.currency == currency)

end WaterPeg.Oracle
