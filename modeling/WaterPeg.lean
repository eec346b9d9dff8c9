import WaterPeg.Config.Environment
import WaterPeg.Config.File
import WaterPeg.Records
import WaterPeg.Reward
import WaterPeg.Proofs.Candidates
import WaterPeg.Proofs.Config.RoundTrip
import WaterPeg.Proofs.InviteCounts
import WaterPeg.Proofs.Moments.Bands
import WaterPeg.Proofs.Moments.Outliers
import WaterPeg.Proofs.Moments.Variation
import WaterPeg.Proofs.Oracle.Commuting
import WaterPeg.Proofs.Oracle.Deviations
import WaterPeg.Proofs.Oracle.Endorsements
import WaterPeg.Proofs.Oracle.Lives
import WaterPeg.Proofs.Oracle.Overwrites
import WaterPeg.Proofs.Oracle.Pages
import WaterPeg.Proofs.Oracle.Pruning
import WaterPeg.Proofs.Oracle.Retries
import WaterPeg.Proofs.Oracle.Rollups
import WaterPeg.Proofs.Oracle.SingleUse
import WaterPeg.Proofs.Oracle.StoredRollups
import WaterPeg.Proofs.Oracle.Sweeps
import WaterPeg.Proofs.Oracle.Turnouts
import WaterPeg.Proofs.Oracle.WellFormed
import WaterPeg.Proofs.Peg.Attempts
import WaterPeg.Proofs.Peg.Days
import WaterPeg.Proofs.Peg.Restart
import WaterPeg.Proofs.Preimages
import WaterPeg.Proofs.Random.Calls
import WaterPeg.Proofs.SquareRoot.Words
import WaterPeg.Proofs.Stabilizer.Amounts
import WaterPeg.Proofs.Stabilizer.Staleness
import WaterPeg.Proofs.Stabilizer.Streaks
import WaterPeg.Proofs.Stabilizer.Totals
import WaterPeg.Proofs.Store.Backends
import WaterPeg.Proofs.Target
